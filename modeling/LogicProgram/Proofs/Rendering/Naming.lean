import LogicProgram.Proofs.Computation
import LogicProgram.Proofs.Token.Splitting
import LogicProgram.Rendering.Namer

/-!
# Names of variables

Every variable that has a domain can be named. Names are given once and stay, and
different variables have different names, from which their domains can be read.
-/

namespace LogicProgram

open List

namespace Text

theorem digit_cases {n : Nat} (h : n < 10) :
    isDigit (digit n) = true ∧ digitValue (digit n) = n := by
  revert n
  decide

theorem ofNat_isDigit (n : Nat) : ∀ c ∈ ofNat n, isDigit c = true := by
  fun_induction ofNat n with
  | case1 n hn => exact fun c hc => mem_singleton.mp hc ▸ (digit_cases hn).1
  | case2 n hn ih =>
    intro c hc
    rcases mem_append.mp hc with hc | hc
    · exact ih c hc
    · exact mem_singleton.mp hc ▸ (digit_cases (Nat.mod_lt n (by omega))).1

theorem ofNat_ne_nil (n : Nat) : ofNat n ≠ [] := by
  rw [ofNat]
  split <;> simp

theorem toNat_append_singleton (t : Text) (b : UInt8) :
    toNat (t ++ [b]) = 10 * toNat t + digitValue b := by
  rw [toNat, foldl_append]
  rfl

/-- A numeral is read as the number that it was written for. -/
theorem toNat_ofNat (n : Nat) : toNat (ofNat n) = n := by
  fun_induction ofNat n with
  | case1 n hn =>
    rw [toNat, foldl_cons, foldl_nil, (digit_cases hn).2]
    omega
  | case2 n hn ih =>
    rw [toNat_append_singleton, ih, (digit_cases (Nat.mod_lt n (by omega))).2]
    omega

theorem ofNat_injective : Function.Injective ofNat := by
  intro m n h
  rw [← toNat_ofNat m, h, toNat_ofNat]

end Text

namespace Token

/-- The words of an integer. -/
def numeral (n : Int) : List Word :=
  if n < 0 then [mark "-", (.number, Text.ofNat n.natAbs)] else [(.number, Text.ofNat n.natAbs)]

theorem spells_numeral (n : Int) : Spells (Text.ofInt n) (numeral n) := by
  have hnumber : ∀ k, Spells (Text.ofNat k) [(.number, Text.ofNat k)] := fun k =>
    spells_number (Text.ofNat_ne_nil k) (Text.ofNat_isDigit k)
  cases n with
  | ofNat k =>
    rw [numeral, if_neg (by simp)]
    exact hnumber k
  | negSucc k =>
    rw [numeral, if_pos (Int.negSucc_lt_zero k)]
    exact (hnumber (k + 1)).minus

end Token

/-- The first letter of the names of a domain. -/
def Domain.letter : Domain → Text
  | .program => "X"
  | .integer => "N"

/-- The `k`-th name of a domain. -/
def Domain.name (domain : Domain) (k : Nat) : Text := domain.letter ++ Text.ofNat k

namespace Domain

variable {domain domain' : Domain} {k k' : Nat}

/-- A name tells its domain and its number. -/
theorem name_inj (h : domain.name k = domain'.name k') : domain = domain' ∧ k = k' := by
  cases domain <;> cases domain'
  case program.program => exact ⟨rfl, Text.ofNat_injective (append_cancel_left h)⟩
  case integer.integer => exact ⟨rfl, Text.ofNat_injective (append_cancel_left h)⟩
  all_goals
    have hhead := congrArg head? h
    cases hhead

theorem isVariableName_name (domain : Domain) (k : Nat) : Token.IsVariableName (domain.name k) := by
  have hdigits : ∀ c ∈ Text.ofNat k, Token.isWordByte c = true := by
    intro c hc
    simp [Token.isWordByte, Text.ofNat_isDigit k c hc]
  cases domain
  · exact ⟨0x58, Text.ofNat k, rfl, by decide, hdigits⟩
  · exact ⟨0x4e, Text.ofNat k, rfl, by decide, hdigits⟩

/-- A name tells the domain. -/
theorem ofVariableName_name (domain : Domain) (k : Nat) :
    ofVariableName (domain.name k) = .ok domain := by
  cases domain <;> rfl

end Domain

namespace Namer

/-- The number of names given for a domain. -/
def count (n : Namer) : Domain → Nat
  | .program => n.programCount
  | .integer => n.integerCount

/-- Every name was given for its variable, and no two variables have the same. -/
structure WellFormed (r : Registry) (n : Namer) : Prop where
  /-- Names are numbered, and their domains are those of their variables. -/
  given : ∀ v name, n.names.lookup v = some name →
    ∃ domain k, r.variableDomain v = some domain ∧ k ≤ n.count domain ∧ name = domain.name k
  distinct : ∀ v w name, n.names.lookup v = some name → n.names.lookup w = some name → v = w

/-- Names stay. -/
def Extends (n n' : Namer) : Prop :=
  ∀ v name, n.names.lookup v = some name → n'.names.lookup v = some name

/-- The names of variables agree with those given so far. -/
def Agrees (n : Namer) (ν : Variable → Text) : Prop :=
  ∀ v name, n.names.lookup v = some name → ν v = name

variable {r : Registry} {n n' n'' : Namer} {ν : Variable → Text} {v : Variable}

theorem wellFormed_empty (r : Registry) : WellFormed r .empty :=
  ⟨fun _ _ h => (nomatch h), fun _ _ _ h _ => (nomatch h)⟩

theorem Extends.refl (n : Namer) : n.Extends n := fun _ _ => id

theorem Extends.trans (h : n.Extends n') (h' : n'.Extends n'') : n.Extends n'' :=
  fun v name hv => h' v name (h v name hv)

theorem Agrees.of_extends (h : n'.Agrees ν) (hn : n.Extends n') : n.Agrees ν :=
  fun v name hv => h v name (hn v name hv)

theorem fst_add (n : Namer) (v : Variable) (domain : Domain) :
    (n.add v domain).1 = domain.name (n.count domain + 1) := by
  cases domain <;> rfl

theorem names_add (n : Namer) (v : Variable) (domain : Domain) :
    (n.add v domain).2.names = (v, domain.name (n.count domain + 1)) :: n.names := by
  cases domain <;> rfl

theorem count_add (n : Namer) (v : Variable) (domain domain' : Domain) :
    (n.add v domain).2.count domain' =
      if domain' = domain then n.count domain + 1 else n.count domain' := by
  cases domain <;> cases domain' <;> rfl

theorem lookup_add (n : Namer) (v w : Variable) (domain : Domain) :
    (n.add v domain).2.names.lookup w =
      if w = v then some (domain.name (n.count domain + 1)) else n.names.lookup w := by
  rw [names_add, lookup_cons]
  by_cases hw : w = v
  · rw [if_pos hw, beq_iff_eq.mpr hw]
  · rw [if_neg hw, beq_eq_false_iff_ne.mpr hw]

/-- A name that is numbered on is new. -/
theorem WellFormed.add_ne (h : n.WellFormed r) {w : Variable} {name : Text} (domain : Domain)
    (hw : n.names.lookup w = some name) : name ≠ domain.name (n.count domain + 1) := by
  rintro rfl
  obtain ⟨domain', k, -, hk, hname⟩ := h.given w _ hw
  obtain ⟨rfl, rfl⟩ := Domain.name_inj hname
  omega

/-- One more name. -/
theorem WellFormed.add (h : n.WellFormed r) {domain : Domain}
    (hdomain : r.variableDomain v = some domain) : (n.add v domain).2.WellFormed r where
  given := fun w name hw => by
    rw [lookup_add] at hw
    split at hw
    · next heq =>
      obtain rfl := Option.some.inj hw
      refine ⟨domain, n.count domain + 1, heq ▸ hdomain, Nat.le_of_eq ?_, rfl⟩
      rw [count_add, if_pos rfl]
    · obtain ⟨domain', k, hd, hk, hname⟩ := h.given w name hw
      refine ⟨domain', k, hd, ?_, hname⟩
      rw [count_add]
      split
      · next heq =>
        rw [heq] at hk
        omega
      · exact hk
  distinct := fun w w' name hw hw' => by
    rw [lookup_add] at hw hw'
    split at hw
    · next heq =>
      split at hw'
      · next heq' => rw [heq, heq']
      · exact (h.add_ne domain hw' (Option.some.inj hw).symm).elim
    · split at hw'
      · exact (h.add_ne domain hw (Option.some.inj hw').symm).elim
      · exact h.distinct w w' name hw hw'

/-- A new name leaves the others as they are. -/
theorem extends_add (hnew : n.names.lookup v = none) (domain : Domain) :
    n.Extends (n.add v domain).2 := by
  intro w name hw
  rw [lookup_add, if_neg]
  · exact hw
  · rintro rfl
    rw [hnew] at hw
    cases hw

end Namer

/-- Names from which some variables and what they range over can be told. -/
structure Registry.Names (r : Registry) (ν : Variable → Text) (vs : List Variable) : Prop where
  distinct : ∀ v ∈ vs, ∀ w ∈ vs, ν v = ν w → v = w
  /-- A name tells the domain. -/
  domain : ∀ v ∈ vs, ∃ domain, r.variableDomain v = some domain ∧
    Domain.ofVariableName (ν v) = .ok domain

/-- A well-formed namer gives each variable its own name. -/
theorem Namer.WellFormed.names {r : Registry} {n : Namer} (hn : n.WellFormed r)
    {ν : Variable → Text} (hν : n.Agrees ν) {vs : List Variable}
    (hvs : ∀ v ∈ vs, (n.names.lookup v).isSome) : r.Names ν vs where
  distinct := fun v hv w hw h => by
    obtain ⟨name, hname⟩ := Option.isSome_iff_exists.mp (hvs v hv)
    obtain ⟨name', hname'⟩ := Option.isSome_iff_exists.mp (hvs w hw)
    rw [hν v name hname, hν w name' hname'] at h
    exact hn.distinct v w name hname (h ▸ hname')
  domain := fun v hv => by
    obtain ⟨name, hname⟩ := Option.isSome_iff_exists.mp (hvs v hv)
    obtain ⟨domain, k, hdomain, -, rfl⟩ := hn.given v name hname
    exact ⟨domain, hdomain, hν v _ hname ▸ domain.ofVariableName_name k⟩

/-- A variable with a domain is given a name, or keeps the one that it has. -/
theorem Naming.exists_nameOf {r : Registry} {n : Namer} {v : Variable} (hn : n.WellFormed r)
    (hv : (r.variableDomain v).isSome) :
    ∃ name n', Returns (nameOf r v) n name n' ∧ n'.WellFormed r ∧ n.Extends n' ∧
      n'.names.lookup v = some name := by
  obtain ⟨domain, hdomain⟩ := Option.isSome_iff_exists.mp hv
  cases hlookup : n.names.lookup v with
  | some name =>
    refine ⟨name, n, ?_, hn, .refl n, hlookup⟩
    simp only [nameOf, Returns.bind_iff, Returns.get_iff]
    refine ⟨n, n, ⟨rfl, rfl⟩, ?_⟩
    rw [hlookup]
    exact Returns.pure_iff.mpr ⟨rfl, rfl⟩
  | none =>
    refine ⟨(n.add v domain).1, (n.add v domain).2, ?_, hn.add hdomain,
      Namer.extends_add hlookup domain, ?_⟩
    · simp only [nameOf, Returns.bind_iff, Returns.get_iff]
      refine ⟨n, n, ⟨rfl, rfl⟩, ?_⟩
      rw [hlookup]
      simp only [domainOf, hdomain, Returns.bind_iff, Returns.pure_iff, Returns.modifyGet_iff]
      exact ⟨domain, n, ⟨rfl, rfl⟩, rfl⟩
    · rw [Namer.lookup_add, if_pos rfl, Namer.fst_add]

end LogicProgram
