import LogicProgram.Proofs.Computation
import LogicProgram.Prover.Cache

/-!
# Transparency of the proof cache

A cache is used by requests, invalidations and openings, in any order. Of every request
it is noted what it made the clock, the prover and the disk do.
-/

namespace LogicProgram.Cache

open List

/-- A cache in use, with the prover behind it. -/
structure Session (σ : Type) where
  /-- The cache, its file and what the prover keeps. -/
  state : State σ
  inner : Prover σ

/-- What can be done with a cache. -/
inductive Operation (σ : Type) where
  | prove (problem : Text)
  | invalidate
  /-- Closes the cache and opens one for another call or prover on the same file. -/
  | reopen (fingerprint : Text) (maxAge : Int) (inner : Prover σ)

/-- What comes back from an operation. -/
inductive Reply where
  | answered (answer : Except Error Verdict)
  | invalidated (saving : Saving)
  /-- Whether the file could be read. -/
  | reopened (success : Bool)

variable {σ : Type} (disk : StateM σ Saving) (clock : StateM σ Int) {s : Session σ}

/-- A cache that is opened where there is no file yet. -/
def Session.start (fingerprint : Text) (maxAge : Int) (inner : Prover σ) (environment : σ) : Session σ :=
  ⟨⟨⟨fingerprint, maxAge, []⟩, .absent, environment⟩, inner⟩

/-- An operation in a session. A cache whose file cannot be read is not closed. -/
def Operation.run : Operation σ → Session σ → Reply × Session σ
  | .prove problem, s =>
    let (answer, state) := outcome (proveSaving disk clock s.inner problem) s.state
    (.answered answer, { s with state })
  | .invalidate, s =>
    let (saving, state) := (invalidateSaving disk).run s.state
    (.invalidated saving, { s with state })
  | .reopen fingerprint maxAge inner, s =>
    match open? fingerprint maxAge s.state.file with
    | some cache => (.reopened true, ⟨{ s.state with cache }, inner⟩)
    | none => (.reopened false, s)

/-- What a request makes others do. -/
inductive Action where
  | read (now : Int)
  | asked (problem : Text) (answer : Except Error Verdict)
  | saved (saving : Saving)

/-- A step that is noted after what was noted before. -/
def noting {α : Type} (note : α → Action) (x : StateM σ α) : StateM (σ × List Action) α :=
  fun (env, actions) =>
  let (a, env) := x.run env
  (a, env, actions ++ [note a])

/-- A prover of which every call is noted. -/
def notingProver (inner : Prover σ) : Prover (σ × List Action) := fun problem =>
  ExceptT.mk (noting (.asked problem) (inner problem).run)

/-- A request to a cache. -/
structure Request where
  problem : Text
  cache : Cache
  file : CacheFile
  actions : List Action
  answer : Except Error Verdict
  newCache : Cache
  newFile : CacheFile

/-- What happens in a session. -/
inductive Event where
  | proved (request : Request)
  | invalidated (saving : Saving)
  | reopened (success : Bool)

/-- A request, with what is done for it. -/
def Session.request (problem : Text) (s : Session σ) : Request :=
  let (answer, t) := outcome
    (proveSaving (noting .saved disk) (noting .read clock) (notingProver s.inner) problem)
    ⟨s.state.cache, s.state.file, s.state.environment, []⟩
  ⟨problem, s.state.cache, s.state.file, t.environment.2, answer, t.cache, t.file⟩

/-- What happens in an operation. -/
def Operation.event : Operation σ → Session σ → Event
  | .prove problem, s => .proved (s.request disk clock problem)
  | .invalidate, s => .invalidated ((invalidateSaving disk).run s.state).1
  | .reopen fingerprint maxAge _, s => .reopened (open? fingerprint maxAge s.state.file).isSome

/-- What happens in operations one after the other. -/
def history : List (Operation σ) → Session σ → List Event
  | [], _ => []
  | op :: ops, s => op.event disk clock s :: history ops (op.run disk clock s).2

/-- Something that is remembered is found, or at most one entry is dropped. -/
theorem lookup_cases (c : Cache) (now : Int) (problem : Text) :
    (∃ e ∈ c.entries, e.key = c.key problem ∧ c.isExpired now e = false ∧
      c.lookup now problem = (some e.verdict, c)) ∨
    ∃ entries, entries ⊆ c.entries ∧ c.lookup now problem = (none, { c with entries }) := by
  unfold lookup
  split
  next => exact .inr ⟨c.entries, List.Subset.refl _, rfl⟩
  next e he =>
    have hkey : e.key = c.key problem := by simpa using find?_some he
    cases hexpired : c.isExpired now e with
    | false => exact .inl ⟨e, mem_of_find?_eq_some he, hkey, hexpired, rfl⟩
    | true => exact .inr ⟨_, filter_sublist.subset, rfl⟩

/-- A request along what it does. -/
theorem outcome_proveSaving (inner : Prover σ) (problem : Text)
    (s : State σ) :
    outcome (proveSaving disk clock inner problem) s =
      match s.cache.lookup (clock.run s.environment).1 problem with
      | (some v, cache) => (.ok v, ⟨cache, s.file, (clock.run s.environment).2⟩)
      | (none, cache) =>
        match outcome (inner problem) (clock.run s.environment).2 with
        | (.error e, env) => (.error e, ⟨cache, s.file, env⟩)
        | (.ok v, env) =>
          let cache := cache.insert (clock.run env).1 problem v
          let saved := disk.run (clock.run env).2
          (.ok v, ⟨cache, cache.save s.file saved.1, saved.2⟩) := by
  simp only [outcome, proveSaving, ExceptT.run, ExceptT.mk]
  rcases clock.run s.environment with ⟨now, env⟩
  simp only
  rcases s.cache.lookup now problem with ⟨_ | v, cache⟩
  · simp only
    rcases inner problem env with ⟨e | v, env'⟩
    · rfl
    · rfl
  · rfl

theorem run_noting {α : Type} (note : α → Action) (x : StateM σ α) (env : σ) (actions : List Action) :
    (noting note x).run (env, actions) = ((x.run env).1, (x.run env).2,
      actions ++ [note (x.run env).1]) := rfl

theorem outcome_notingProver (inner : Prover σ) (problem : Text) (env : σ) (actions : List Action) :
    outcome (notingProver inner problem) (env, actions) =
      ((outcome (inner problem) env).1, (outcome (inner problem) env).2,
        actions ++ [.asked problem (outcome (inner problem) env).1]) := rfl

/-- Taking notes changes nothing else. -/
theorem request_run (problem : Text) :
    let r := s.request disk clock problem
    let t := outcome (proveSaving disk clock s.inner problem) s.state
    r.answer = t.1 ∧ r.newCache = t.2.cache ∧ r.newFile = t.2.file := by
  simp only [Session.request, outcome_proveSaving, run_noting, outcome_notingProver]
  rcases s.state.cache.lookup (clock.run s.state.environment).1 problem with ⟨_ | v, cache⟩
  · simp only
    rcases outcome (s.inner problem) (clock.run s.state.environment).2 with ⟨e | v, env⟩
    · exact ⟨rfl, rfl, rfl⟩
    · exact ⟨rfl, rfl, rfl⟩
  · exact ⟨rfl, rfl, rfl⟩

/-- A request finds the answer, or asks the prover and remembers a verdict. -/
theorem request_cases (problem : Text) (s : Session σ) :
    let r := s.request disk clock problem
    ∃ now,
      (∃ e ∈ r.cache.entries, e.key = r.cache.key problem ∧ r.cache.isExpired now e = false ∧
        r.answer = .ok e.verdict ∧ r.actions = [.read now] ∧ r.newCache = r.cache ∧ r.newFile = r.file) ∨
      ∃ entries, entries ⊆ r.cache.entries ∧
        ((∃ e, r.answer = .error e ∧ r.actions = [.read now, .asked problem (.error e)] ∧
            r.newCache = { r.cache with entries } ∧ r.newFile = r.file) ∨
          ∃ v created saving, r.answer = .ok v ∧
            r.actions = [.read now, .asked problem (.ok v), .read created, .saved saving] ∧
            r.newCache = insert { r.cache with entries } created problem v ∧
            r.newFile = r.newCache.save r.file saving) := by
  refine ⟨(clock.run s.state.environment).1, ?_⟩
  simp only [Session.request, outcome_proveSaving, run_noting, outcome_notingProver]
  rcases lookup_cases s.state.cache (clock.run s.state.environment).1 problem with
    ⟨e, he, hkey, hexpired, hlookup⟩ | ⟨entries, hsub, hlookup⟩
  · exact .inl ⟨e, by rw [hlookup]; exact ⟨he, hkey, hexpired, rfl, rfl, rfl, rfl⟩⟩
  · refine .inr ⟨entries, ?_⟩
    rw [hlookup]
    refine ⟨hsub, ?_⟩
    simp only
    rcases outcome (s.inner problem) (clock.run s.state.environment).2 with ⟨e | v, env⟩
    · exact .inl ⟨e, rfl, rfl, rfl, rfl⟩
    · exact .inr ⟨v, _, _, rfl, rfl, rfl, rfl⟩

/-- In a request the prover gave a verdict, which was remembered at a time. -/
def Request.Gave (r : Request) (v : Verdict) (created : Int) : Prop :=
  ∃ now saving, r.actions = [.read now, .asked r.problem (.ok v), .read created, .saved saving]

/-- A verdict was given in the past, and nothing has been forgotten since. -/
def Remembered (past : List Event) (fingerprint problem : Text) (v : Verdict) (created : Int) : Prop :=
  ∃ before r between, past = before ++ .proved r :: between ∧ .invalidated .complete ∉ between ∧
    r.cache.fingerprint = fingerprint ∧ r.problem = problem ∧ r.Gave v created

/-- The answer to a request is new, or remembered and recent enough, or an error that
leaves nothing behind. -/
inductive Request.Explained (past : List Event) (r : Request) : Prop where
  | given (v : Verdict) (created : Int) (hanswer : r.answer = .ok v) (hgave : r.Gave v created)
  | remembered (v : Verdict) (now created : Int) (hanswer : r.answer = .ok v)
      (hactions : r.actions = [.read now])
      (hpast : Remembered past r.cache.fingerprint r.problem v created)
      (hage : 0 < r.cache.maxAge → now - created ≤ r.cache.maxAge)
  | failed (e : Error) (now : Int) (hanswer : r.answer = .error e)
      (hactions : r.actions = [.read now, .asked r.problem (.error e)])
      (hcache : r.newCache.entries ⊆ r.cache.entries) (hfile : r.newFile = r.file)

/-- What is remembered after a verdict has been added. -/
theorem mem_insert {c : Cache} {now : Int} {problem : Text} {v : Verdict} {e : Entry}
    (h : e ∈ (c.insert now problem v).entries) : e ∈ c.entries ∨ e = ⟨c.key problem, v, now⟩ := by
  rcases mem_append.mp h with h | h
  · exact .inl (mem_filter.mp h).1
  · exact .inr (mem_singleton.mp h)

/-- An entry comes from a request in the past. -/
def Entry.Known (past : List Event) (e : Entry) : Prop :=
  ∃ fingerprint problem, 0 ∉ fingerprint ∧ e.key = fingerprint ++ 0 :: problem ∧
    Remembered past fingerprint problem e.verdict e.created

/-- All entries in memory and in the file come from requests in the past. -/
structure Invariant (past : List Event) (s : Session σ) : Prop where
  /-- The key of an entry can be taken apart. -/
  fingerprint : 0 ∉ s.state.cache.fingerprint
  memory : ∀ e ∈ s.state.cache.entries, e.Known past
  file : ∀ entries, s.state.file = .saved entries → ∀ e ∈ entries, e.Known past

/-- Everything but an invalidation leaves an entry as good as it was. -/
theorem Entry.Known.append {past : List Event} {e : Entry} (h : e.Known past) {event : Event}
    (hevent : event ≠ .invalidated .complete) : e.Known (past ++ [event]) := by
  obtain ⟨fingerprint, problem, hzero, hkey, before, r, between, rfl, hbetween, hr⟩ := h
  refine ⟨fingerprint, problem, hzero, hkey, before, r, between ++ [event], ?_, ?_, hr⟩
  · rw [append_assoc, cons_append]
  · simp only [mem_append, mem_singleton, not_or]
    exact ⟨hbetween, hevent.symm⟩

/-- Without a zero byte in the call, a key says the call and the problem. -/
theorem key_inj {fingerprint fingerprint' problem problem' : Text} (h : 0 ∉ fingerprint)
    (h' : 0 ∉ fingerprint') (hkey : fingerprint ++ 0 :: problem = fingerprint' ++ 0 :: problem') :
    fingerprint = fingerprint' ∧ problem = problem' := by
  induction fingerprint generalizing fingerprint' with
  | nil =>
    cases fingerprint' with
    | nil => simpa using hkey
    | cons b rest =>
      obtain ⟨rfl, -⟩ := cons_eq_cons.mp hkey
      exact absurd mem_cons_self h'
  | cons b rest ih =>
    cases fingerprint' with
    | nil =>
      obtain ⟨rfl, -⟩ := cons_eq_cons.mp hkey
      exact absurd mem_cons_self h
    | cons b' rest' =>
      obtain ⟨rfl, hrest⟩ := cons_eq_cons.mp hkey
      obtain ⟨rfl, rfl⟩ := ih (fun hm => h (mem_cons_of_mem _ hm))
        (fun hm => h' (mem_cons_of_mem _ hm)) hrest
      exact ⟨rfl, rfl⟩

/-- A cache is only opened for calls of the prover without a zero byte. -/
def Operation.Separable : Operation σ → Prop
  | .reopen fingerprint _ _ => 0 ∉ fingerprint
  | _ => True

namespace Invariant

variable {past : List Event}

theorem start {fingerprint : Text} (h : 0 ∉ fingerprint) (maxAge : Int) (inner : Prover σ) (env : σ) :
    Invariant [] (.start fingerprint maxAge inner env) where
  fingerprint := h
  memory e he := absurd he not_mem_nil
  file entries hfile := by cases hfile

/-- An answer that the prover does not give now is one that it gave before. -/
theorem explained (h : Invariant past s) (problem : Text) :
    (s.request disk clock problem).Explained past := by
  have hproblem : (s.request disk clock problem).problem = problem := rfl
  have hcache : (s.request disk clock problem).cache = s.state.cache := rfl
  obtain ⟨now, ⟨e, he, hkey, hexpired, hanswer, hactions, -, -⟩ | ⟨entries, hsub, hcase⟩⟩ :=
    request_cases disk clock problem s
  · -- The entry was made for its key, which says for which call and problem.
    obtain ⟨fingerprint, problem', hzero, hkey', hpast⟩ := h.memory e he
    obtain ⟨hfingerprint, rfl⟩ := key_inj hzero h.fingerprint (hkey'.symm.trans hkey)
    refine .remembered e.verdict now e.created hanswer hactions (by rwa [hcache, ← hfingerprint]) ?_
    intro hmax
    simp only [isExpired, Bool.and_eq_false_iff, decide_eq_false_iff_not] at hexpired
    omega
  · rcases hcase with ⟨e, hanswer, hactions, hnew, hfile⟩ | ⟨v, created, saving, hanswer, hactions, -, -⟩
    · exact .failed e now hanswer hactions (by rw [hnew]; exact hsub) hfile
    · exact .given v created hanswer ⟨now, saving, hactions⟩

/-- A request leaves only old entries and those that it has added. -/
theorem prove (h : Invariant past s) (problem : Text) :
    Invariant (past ++ [.proved (s.request disk clock problem)])
      ((Operation.prove problem).run disk clock s).2 := by
  have hcache : (s.request disk clock problem).newCache =
      ((Operation.prove problem).run disk clock s).2.state.cache := (request_run disk clock problem).2.1
  have hfile : (s.request disk clock problem).newFile =
      ((Operation.prove problem).run disk clock s).2.state.file := (request_run disk clock problem).2.2
  have hkept : ∀ e : Entry, e.Known past → e.Known (past ++ [.proved (s.request disk clock problem)]) :=
    fun e he => he.append (by simp)
  have hold : ∀ entries, s.state.file = .saved entries → ∀ e ∈ entries,
      e.Known (past ++ [.proved (s.request disk clock problem)]) :=
    fun entries hentries e he => hkept e (h.file entries hentries e he)
  obtain ⟨now, ⟨e, -, -, -, -, -, hnew, hnewFile⟩ | ⟨entries, hsub, hcase⟩⟩ :=
    request_cases disk clock problem s
  · refine ⟨by rw [← hcache, hnew]; exact h.fingerprint,
      fun e he => ?_, by rw [← hfile, hnewFile]; exact hold⟩
    rw [← hcache, hnew] at he
    exact hkept e (h.memory e he)
  rcases hcase with ⟨e, -, -, hnew, hnewFile⟩ | ⟨v, created, saving, -, hactions, hnew, hnewFile⟩
  · refine ⟨by rw [← hcache, hnew]; exact h.fingerprint,
      fun e he => ?_, by rw [← hfile, hnewFile]; exact hold⟩
    rw [← hcache, hnew] at he
    exact hkept e (h.memory e (hsub he))
  · have hmemory : ∀ e ∈ (s.request disk clock problem).newCache.entries,
        e.Known (past ++ [.proved (s.request disk clock problem)]) := by
      intro e he
      rw [hnew] at he
      rcases mem_insert he with he | rfl
      · exact hkept e (h.memory e (hsub he))
      · exact ⟨s.state.cache.fingerprint, problem, h.fingerprint, rfl, past, _, [], rfl, not_mem_nil,
          rfl, rfl, now, saving, hactions⟩
    refine ⟨by rw [← hcache, hnew]; exact h.fingerprint, hcache ▸ hmemory, ?_⟩
    rw [← hfile, hnewFile]
    -- The file holds what is in memory or what it held before, unless it is damaged.
    cases saving with
    | complete =>
      rintro _ ⟨⟩
      exact hmemory
    | refused => exact hold
    | cutShort => rintro _ ⟨⟩

/-- After an invalidation only what is in an unwritable file is left. -/
theorem invalidate (h : Invariant past s) :
    Invariant (past ++ [Operation.invalidate.event disk clock s])
      (Operation.invalidate.run disk clock s).2 := by
  refine ⟨h.fingerprint, nofun, fun entries hentries e he => ?_⟩
  have hfile : s.state.cache.clear.save s.state.file (disk.run s.state.environment).1 =
      .saved entries := hentries
  cases hsaving : (disk.run s.state.environment).1 with
  | complete =>
    rw [hsaving] at hfile
    cases hfile
    exact absurd he not_mem_nil
  | refused =>
    rw [hsaving] at hfile
    refine (h.file entries hfile e he).append ?_
    show Event.invalidated (disk.run s.state.environment).1 ≠ _
    simp [hsaving]
  | cutShort =>
    rw [hsaving] at hfile
    cases hfile

theorem reopen (h : Invariant past s) {fingerprint : Text}
    (hzero : 0 ∉ fingerprint) (maxAge : Int) (inner : Prover σ) :
    Invariant (past ++ [(Operation.reopen fingerprint maxAge inner).event disk clock s])
      ((Operation.reopen fingerprint maxAge inner).run disk clock s).2 := by
  have hkept : ∀ e : Entry, e.Known past → e.Known (past ++
      [(Operation.reopen fingerprint maxAge inner).event disk clock s]) :=
    fun e he => he.append (by simp [Operation.event])
  have hfile := fun entries hentries e he => hkept e (h.file entries hentries e he)
  simp only [Operation.run]
  cases hcontent : s.state.file with
  | absent =>
    exact ⟨hzero, nofun, fun entries h => hfile entries (hcontent.trans h)⟩
  | damaged => exact ⟨h.fingerprint, fun e he => hkept e (h.memory e he), hfile⟩
  | saved entries =>
    exact ⟨hzero, hfile entries hcontent, fun entries h => hfile entries (hcontent.trans h)⟩

/-- Every operation keeps the invariant. -/
theorem step (h : Invariant past s) {op : Operation σ}
    (hop : op.Separable) : Invariant (past ++ [op.event disk clock s]) (op.run disk clock s).2 := by
  cases op with
  | prove problem => exact h.prove disk clock problem
  | invalidate => exact h.invalidate disk clock
  | reopen fingerprint maxAge inner => exact h.reopen disk clock hop maxAge inner

/-- Every request in a history has an explanation in what happened before. -/
theorem history (h : Invariant past s)
    {ops : List (Operation σ)} (hops : ∀ op ∈ ops, op.Separable) {before after : List Event} {r : Request}
    (hr : history disk clock ops s = before ++ .proved r :: after) : r.Explained (past ++ before) := by
  induction ops generalizing past s before with
  | nil => simp [Cache.history] at hr
  | cons op ops ih =>
    obtain ⟨hop, hops⟩ := forall_mem_cons.mp hops
    cases before with
    | nil =>
      obtain ⟨hevent, -⟩ := cons_eq_cons.mp hr
      cases op with
      | prove problem =>
        obtain rfl := Event.proved.inj hevent
        rw [append_nil]
        exact h.explained disk clock problem
      | invalidate | reopen fingerprint maxAge inner => cases hevent
    | cons event before =>
      obtain ⟨rfl, hrest⟩ := cons_eq_cons.mp hr
      have hexplained := ih (h.step disk clock hop) hops hrest
      rwa [append_assoc] at hexplained

end Invariant

/-- A prover that proves everything. -/
def proving : Prover Nat := fun _ => return ⟨.proven, none⟩

end LogicProgram.Cache
