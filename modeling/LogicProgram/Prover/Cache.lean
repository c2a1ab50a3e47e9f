import LogicProgram.Prover.Verdict

/-!
# The proof cache

Verdicts are remembered with the problem, the way the prover was called and the
time they were given at. The cache is kept in memory and saved to a file as a
whole whenever a verdict is added. Failures of the prover are never remembered.
An expired entry is dropped from memory when it is looked up; the file keeps it
until the next save.
-/

namespace LogicProgram

/-- A remembered verdict. -/
structure Cache.Entry where
  /-- What the verdict was about. -/
  key : Text
  verdict : Verdict
  /-- When it was given, in nanoseconds. -/
  created : Int
deriving DecidableEq, Repr, Inhabited

/-- What the file of a cache holds. -/
inductive CacheFile where
  /-- There is no file. -/
  | absent
  /-- A file that cannot be read back. -/
  | damaged
  /-- The entries that were saved last. -/
  | saved (entries : List Cache.Entry)
deriving DecidableEq, Repr, Inhabited

/-- A cache in memory. -/
structure Cache where
  /-- The way the prover is called. -/
  fingerprint : Text
  /-- The age in nanoseconds up to which an entry is used; any if not positive. -/
  maxAge : Int
  /-- The entries, at most one for each key. -/
  entries : List Cache.Entry
deriving DecidableEq, Repr, Inhabited

namespace Cache

/-- A cache with the entries of a file, unless the file is damaged. -/
def open? (fingerprint : Text) (maxAge : Int) : CacheFile → Option Cache
  | .absent => some ⟨fingerprint, maxAge, []⟩
  | .damaged => none
  | .saved entries => some ⟨fingerprint, maxAge, entries⟩

/-- What identifies a problem: the call of the prover and the problem, with a
zero byte between them. -/
def key (c : Cache) (problem : Text) : Text := c.fingerprint ++ 0 :: problem

/-- Whether an entry is too old. -/
def isExpired (c : Cache) (now : Int) (e : Entry) : Bool :=
  0 < c.maxAge && c.maxAge < now - e.created

/-- Forgets what is remembered under a key. -/
def erase (c : Cache) (key : Text) : Cache :=
  { c with entries := c.entries.filter (·.key != key) }

/-- What is remembered about a problem. -/
def lookup (c : Cache) (now : Int) (problem : Text) : Option Verdict × Cache :=
  match c.entries.find? (·.key == c.key problem) with
  | none => (none, c)
  | some e => if c.isExpired now e then (none, c.erase e.key) else (some e.verdict, c)

/-- Remembers a verdict about a problem. -/
def insert (c : Cache) (now : Int) (problem : Text) (v : Verdict) : Cache :=
  let key := c.key problem
  { c with entries := (c.erase key).entries ++ [⟨key, v, now⟩] }

/-- Forgets everything. -/
def clear (c : Cache) : Cache := { c with entries := [] }

/-- What a save writes. -/
def toFile (c : Cache) : CacheFile := .saved c.entries

/-- How a save ends. -/
inductive Saving where
  /-- Everything was written. -/
  | complete
  /-- The file could not be created, and is as it was before. -/
  | refused
  /-- The file was created, but not written to its end. -/
  | cutShort
deriving DecidableEq, Repr, Inhabited

/-- The file after a save. -/
def save (c : Cache) (file : CacheFile) : Saving → CacheFile
  | .complete => c.toFile
  | .refused => file
  | .cutShort => .damaged

/-- A cache, its file and what the prover behind it keeps. -/
structure State (σ : Type) where
  cache : Cache
  file : CacheFile
  /-- What the prover keeps. -/
  environment : σ

variable {σ : Type}

/-- A prover that only asks the one behind it about problems of which nothing
is remembered. The clock is read at the lookup and again when a verdict is
remembered, which is then saved. It does not matter how the save ends. -/
def proveSaving (disk : StateM σ Saving) (clock : StateM σ Int) (inner : Prover σ) :
    Prover (State σ) := fun problem =>
  ExceptT.mk fun s =>
    let (now, environment) := clock.run s.environment
    let (known, cache) := s.cache.lookup now problem
    match known with
    | some v => (.ok v, { s with cache, environment })
    | none =>
      let (answer, environment) := ((inner problem).run environment : Except Error Verdict × σ)
      match answer with
      | .error e => (.error e, { s with cache, environment })
      | .ok v =>
        let (now, environment) := clock.run environment
        let (saving, environment) := disk.run environment
        let cache := cache.insert now problem v
        (.ok v, { cache, file := cache.save s.file saving, environment })

/-- Forgets everything and saves that. -/
def invalidateSaving (disk : StateM σ Saving) : StateM (State σ) Saving := fun s =>
  let (saving, environment) := disk.run s.environment
  (saving, { cache := s.cache.clear, file := s.cache.clear.save s.file saving, environment })

/-- A prover that remembers, on a disk that takes every file. -/
def prove (clock : StateM σ Int) (inner : Prover σ) : Prover (State σ) :=
  proveSaving (pure .complete) clock inner

/-- Forgets everything, on a disk that takes every file. -/
def invalidate : StateM (State σ) Unit := discard (invalidateSaving (pure .complete))

end Cache

end LogicProgram
