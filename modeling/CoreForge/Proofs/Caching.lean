import Mathlib.Data.List.DropRight
import CoreForge.Bus.Cache
/-!
# When a library is read

The files may change between two requests to a cache. A library is answered as it was at the first request,
since the cache was last cleared, at which it was needed and could be read: `snapshot_run`. Which request
that is follows from the history alone, and each request adds to the cache what it reads itself, if anything.
-/

namespace CoreForge

/-- What is asked of a cache. -/
inductive CacheRequest
  | default
  | resolve (path : Option String)
  | clear
deriving DecidableEq, Repr

/-- A request, and the files as they are then. -/
structure Visit where
  files : Files
  request : CacheRequest

/-! ## Histories -/

namespace Visit

/-- The visits since the cache was last cleared. -/
def recent (past : List Visit) : List Visit := past.rtakeWhile fun v => v.request ≠ .clear

/-- The library at the path, where the visit asks for it and it can be read. -/
def explicit? (path : String) (v : Visit) : Option BusLibrary :=
  match v.request with
  | .resolve (some asked) => if Path.steps asked = Path.steps path then (BusLibrary.load v.files asked).toOption else none
  | _ => none

/-- The first library that is read from the path. -/
def firstExplicit? (path : String) (visits : List Visit) : Option BusLibrary := visits.findSome? (explicit? path)

/-- The visit needs the default library: it asks for it, or for a path from which nothing has been read. -/
def needsDefault (before : List Visit) (v : Visit) : Bool :=
  match v.request with
  | .default | .resolve none => true
  | .resolve (some path) => (firstExplicit? path (before ++ [v])).isNone
  | .clear => false

/-- What is read as the default library: the one at the default path, or the built-in one when
there is no path. -/
def originLibrary (origin : Option String) (files : Files) : Except Failure BusLibrary :=
  match origin with
  | some path => BusLibrary.load files path
  | none => .ok .builtin

/-- The default library, where the visit needs it and it can be read. -/
def default? (origin : Option String) (before : List Visit) (v : Visit) : Option BusLibrary :=
  if v.needsDefault before then (originLibrary origin v.files).toOption else none

/-- The first default library that is read, after the visits before. -/
def firstDefault? (origin : Option String) : List Visit → List Visit → Option BusLibrary
  | _, [] => none
  | before, v :: visits => (v.default? origin before).or (firstDefault? origin (before ++ [v]) visits)

theorem recent_concat (past : List Visit) (v : Visit) :
    recent (past ++ [v]) = if v.request = .clear then [] else recent past ++ [v] := by
  by_cases h : v.request = .clear
  · rw [recent, List.rtakeWhile_concat_neg _ _ _ (by simp [h]), if_pos h]
  · rw [recent, List.rtakeWhile_concat_pos _ _ _ (by simp [h]), if_neg h, recent]

theorem firstExplicit?_concat (path : String) (visits : List Visit) (v : Visit) :
    firstExplicit? path (visits ++ [v]) = (firstExplicit? path visits).or (v.explicit? path) := by
  rw [firstExplicit?, List.findSome?_append, List.findSome?_singleton, firstExplicit?]

theorem needsDefault_iff {before : List Visit} {v : Visit} (hv : v.request ≠ .clear) :
    v.needsDefault before = true ↔
      ∀ asked, v.request = .resolve (some asked) → firstExplicit? asked (before ++ [v]) = none := by
  unfold needsDefault
  split
  · simp [*]
  · simp [*]
  · simp [*]
  · contradiction

theorem firstDefault?_concat (origin : Option String) (before visits : List Visit) (v : Visit) :
    firstDefault? origin before (visits ++ [v]) =
      (firstDefault? origin before visits).or (v.default? origin (before ++ visits)) := by
  induction visits generalizing before with
  | nil => simp [firstDefault?]
  | cons w visits ih => simp [firstDefault?, ih, Option.or_assoc]

end Visit

namespace LibraryCache

/-! ## What one visit does -/

/-- The cache after a visit. -/
def after (cache : LibraryCache) (v : Visit) : LibraryCache :=
  match v.request with
  | .default => (cache.defaultLibrary v.files).2
  | .resolve path => (cache.resolve v.files path).2
  | .clear => cache.clear

/-- The answer to a visit. Clearing has none. -/
def answer? (cache : LibraryCache) (v : Visit) : Option (Except Failure BusLibrary) :=
  match v.request with
  | .default => some (cache.defaultLibrary v.files).1
  | .resolve path => some (cache.resolve v.files path).1
  | .clear => none

section Steps
variable (cache : LibraryCache)

theorem defaultLibrary_fst (files : Files) : (cache.defaultLibrary files).1 =
    match cache.default? with
    | some library => .ok library
    | none => cache.loadDefault files := by
  unfold defaultLibrary
  cases cache.default? with
  | some library => rfl
  | none => cases cache.loadDefault files <;> rfl

theorem defaultLibrary_snd (files : Files) : (cache.defaultLibrary files).2 =
    { cache with default? := cache.default?.or (cache.loadDefault files).toOption } := by
  obtain ⟨defaultPath, default?, explicit⟩ := cache
  unfold defaultLibrary
  cases default? with
  | some library => rfl
  | none => cases loadDefault ⟨defaultPath, none, explicit⟩ files <;> rfl

/-- A visit is answered with the library that is kept for its path, or with the one that it reads from there, or
else it is one for the default library. -/
theorem visit_cases {v : Visit} (hv : v.request ≠ .clear) :
    (∃ asked library, v.request = .resolve (some asked) ∧ cache.explicit? asked = some library ∧
      cache.answer? v = some (.ok library) ∧ cache.after v = cache) ∨
    (∃ asked library, v.request = .resolve (some asked) ∧ cache.explicit? asked = none ∧
      BusLibrary.load v.files asked = .ok library ∧ cache.answer? v = some (.ok library) ∧
      cache.after v = { cache with explicit := (Path.steps asked, library) :: cache.explicit }) ∨
    ((∀ asked, v.request = .resolve (some asked) → cache.explicit? asked = none) ∧ (∀ path, v.explicit? path = none) ∧
      cache.answer? v = some (cache.defaultLibrary v.files).1 ∧ cache.after v = (cache.defaultLibrary v.files).2) := by
  obtain ⟨files, request⟩ := v
  match request with
  | .clear => exact absurd rfl hv
  | .default => exact .inr (.inr ⟨nofun, fun _ => rfl, rfl, rfl⟩)
  | .resolve none => exact .inr (.inr ⟨nofun, fun _ => rfl, rfl, rfl⟩)
  | .resolve (some asked) =>
    simp only [answer?, after, resolve]
    cases hkept : cache.explicit? asked with
    | some library => exact .inl ⟨asked, library, rfl, hkept, rfl, rfl⟩
    | none =>
      cases hload : BusLibrary.load files asked with
      | ok library => exact .inr (.inl ⟨asked, library, rfl, hkept, hload, rfl, rfl⟩)
      | error e =>
        refine .inr (.inr ⟨?_, fun path => ?_, rfl, rfl⟩)
        · rintro _ ⟨⟩
          exact hkept
        · simp [Visit.explicit?, hload, Except.toOption]

theorem explicit?_congr {path asked : String} (h : Path.steps path = Path.steps asked) :
    cache.explicit? path = cache.explicit? asked := by
  rw [explicit?, explicit?, h]

theorem explicit?_cons (path : String) (library : BusLibrary) (asked : String) :
    explicit? { cache with explicit := (Path.steps path, library) :: cache.explicit } asked =
      if Path.steps path = Path.steps asked then some library else cache.explicit? asked := by
  unfold explicit?
  by_cases h : Path.steps path = Path.steps asked <;> simp [h]

/-- The library of a path is read by a visit that asks for the path, unless it is there. -/
theorem explicit?_after {v : Visit} (hv : v.request ≠ .clear) (path : String) :
    (cache.after v).explicit? path = (cache.explicit? path).or (v.explicit? path) := by
  rcases cache.visit_cases hv with
    ⟨asked, library, hrequest, hkept, -, hafter⟩ | ⟨asked, library, hrequest, hnone, hload, -, hafter⟩ |
    ⟨-, hexplicit, -, hafter⟩
  · rw [hafter, Visit.explicit?, hrequest]
    by_cases hsame : Path.steps asked = Path.steps path
    · rw [← cache.explicit?_congr hsame, hkept, Option.some_or]
    · simp [hsame]
  · rw [hafter, explicit?_cons, Visit.explicit?, hrequest]
    by_cases hsame : Path.steps asked = Path.steps path
    · simp [hsame, ← cache.explicit?_congr hsame, hnone, hload, Except.toOption]
    · simp [hsame]
  · rw [hafter, defaultLibrary_snd, hexplicit, Option.or_none]
    rfl

/-- No visit changes where the default library is, and libraries are kept by the steps of paths. -/
theorem after_frame {v : Visit} (hv : v.request ≠ .clear) :
    (cache.after v).defaultPath = cache.defaultPath ∧
      ∀ e ∈ (cache.after v).explicit, e ∈ cache.explicit ∨ ∃ path, e.1 = Path.steps path := by
  rcases cache.visit_cases hv with
    ⟨_, _, -, -, -, hafter⟩ | ⟨asked, library, -, -, -, -, hafter⟩ | ⟨-, -, -, hafter⟩
  · rw [hafter]
    exact ⟨rfl, fun e he => .inl he⟩
  · rw [hafter]
    refine ⟨rfl, fun e he => ?_⟩
    rcases List.mem_cons.1 he with rfl | he
    · exact .inr ⟨asked, rfl⟩
    · exact .inl he
  · rw [hafter, defaultLibrary_snd]
    exact ⟨rfl, fun e he => .inl he⟩

theorem defaultLibrary_of_failure {files : Files} {e : Failure} (h : (cache.defaultLibrary files).1 = .error e) :
    (cache.defaultLibrary files).2 = cache := by
  rw [defaultLibrary_fst] at h
  rw [defaultLibrary_snd]
  cases hdefault : cache.default? with
  | some library =>
    rw [hdefault] at h
    cases h
  | none =>
    have hload : cache.loadDefault files = .error e := by
      rw [hdefault] at h
      exact h
    rw [hload, Option.none_or, Except.toOption, ← hdefault]

/-- A failure leaves the cache as it was. -/
theorem after_of_failure {v : Visit} {e : Failure} (h : cache.answer? v = some (.error e)) : cache.after v = cache := by
  have hv : v.request ≠ .clear := by
    intro hclear
    rw [answer?, hclear] at h
    cases h
  rcases cache.visit_cases hv with
    ⟨_, _, -, -, -, hafter⟩ | ⟨_, _, -, -, -, hanswer, -⟩ | ⟨-, -, hanswer, hafter⟩
  · exact hafter
  · rw [hanswer] at h
    cases h
  · rw [hanswer, Option.some.injEq] at h
    rw [hafter, cache.defaultLibrary_of_failure h]

end Steps

/-! ## What a history leaves in a cache -/

/-- The cache holds what the visits have read first. -/
structure Holds (origin : Option String) (visits : List Visit) (cache : LibraryCache) : Prop where
  defaultPath : cache.defaultPath = origin
  default? : cache.default? = Visit.firstDefault? origin [] visits
  explicit? : ∀ path, cache.explicit? path = Visit.firstExplicit? path visits
  keys : ∀ e ∈ cache.explicit, ∃ path, e.1 = Path.steps path

theorem holds_new (origin : Option String) : Holds origin [] (new origin) where
  defaultPath := rfl
  default? := rfl
  explicit? _ := rfl
  keys := nofun

section Histories
variable {origin : Option String} {visits : List Visit} {cache : LibraryCache} (h : Holds origin visits cache)
include h

/-- The cache loads its default library from where the visits have it. -/
theorem Holds.loadDefault (files : Files) : Visit.originLibrary origin files = cache.loadDefault files := by
  rw [← h.defaultPath]
  rfl

/-- The default library is read by a visit that needs it, unless it is there. -/
theorem Holds.default?_after {v : Visit} (hv : v.request ≠ .clear) :
    (cache.after v).default? = cache.default?.or (v.default? origin visits) := by
  have hneeds : v.needsDefault visits = true ↔
      ∀ asked, v.request = .resolve (some asked) → (cache.explicit? asked).or (v.explicit? asked) = none := by
    simp only [Visit.needsDefault_iff hv, Visit.firstExplicit?_concat, h.explicit?]
  rw [Visit.default?, h.loadDefault]
  rcases cache.visit_cases hv with
    ⟨asked, library, hrequest, hkept, -, hafter⟩ | ⟨asked, library, hrequest, -, hload, -, hafter⟩ |
    ⟨hnone, hexplicit, -, hafter⟩
  · have hunneeded : v.needsDefault visits ≠ true := by
      rw [Ne, hneeds]
      intro hmissing
      simpa [hkept] using hmissing asked hrequest
    rw [if_neg hunneeded, hafter, Option.or_none]
  · have hunneeded : v.needsDefault visits ≠ true := by
      rw [Ne, hneeds]
      intro hmissing
      simpa [Visit.explicit?, hrequest, hload, Except.toOption] using hmissing asked hrequest
    rw [if_neg hunneeded, hafter, Option.or_none]
  · have hneeded : v.needsDefault visits = true := by
      rw [hneeds]
      intro asked hrequest
      rw [hnone asked hrequest, hexplicit, Option.or_none]
    rw [if_pos hneeded, hafter, defaultLibrary_snd]

theorem Holds.after {v : Visit} (hv : v.request ≠ .clear) : Holds origin (visits ++ [v]) (cache.after v) where
  defaultPath := (cache.after_frame hv).1.trans h.defaultPath
  default? := by rw [h.default?_after hv, h.default?, Visit.firstDefault?_concat, List.nil_append]
  explicit? path := by rw [cache.explicit?_after hv, h.explicit?, Visit.firstExplicit?_concat]
  keys e he := ((cache.after_frame hv).2 e he).elim (h.keys e) id

/-! ## What a cache answers -/

/-- The default library is the first one that has been read or is read now. -/
theorem Holds.defaultLibrary (files : Files) :
    match Visit.firstDefault? origin [] (visits ++ [⟨files, .default⟩]) with
    | some library => (cache.defaultLibrary files).1 = .ok library
    | none => ∃ path e, origin = some path ∧ BusLibrary.load files path = .error e ∧
        (cache.defaultLibrary files).1 = .error e := by
  have hload := h.loadDefault files
  rw [Visit.firstDefault?_concat, ← h.default?, Visit.default?, if_pos (by rfl), hload, defaultLibrary_fst]
  cases cache.default? with
  | some library => rfl
  | none =>
    cases hresult : cache.loadDefault files with
    | ok library => rfl
    | error e =>
      rw [hresult] at hload
      -- The built-in library does not fail.
      cases origin with
      | some path => exact ⟨path, e, rfl, hload, rfl⟩
      | none => cases hload

/-- The library for a path is the first one that has been read from the path or is read now. -/
theorem Holds.resolve_some (files : Files) (path : String) : (cache.resolve files (some path)).1 =
    match Visit.firstExplicit? path (visits ++ [⟨files, .resolve (some path)⟩]) with
    | some library => .ok library
    | none => (cache.defaultLibrary files).1 := by
  simp only [Visit.firstExplicit?_concat, ← h.explicit?, Visit.explicit?, if_true, LibraryCache.resolve]
  cases cache.explicit? path with
  | some library => rfl
  | none => cases BusLibrary.load files path <;> rfl

/-- A library is loaded when one has been read. -/
theorem Holds.isLoaded : cache.isLoaded = true ↔
    (Visit.firstDefault? origin [] visits).isSome ∨ ∃ path, (Visit.firstExplicit? path visits).isSome := by
  simp only [LibraryCache.isLoaded, Bool.or_eq_true, ← h.default?, ← h.explicit?]
  refine or_congr_right ⟨fun hkept => ?_, fun ⟨path, hkept⟩ => ?_⟩
  · -- A library that is kept is kept for some path, which asks for it again.
    cases hexplicit : cache.explicit with
    | nil => simp [hexplicit] at hkept
    | cons e es =>
      obtain ⟨path, hpath⟩ := h.keys e (by simp [hexplicit])
      exact ⟨path, by simp [LibraryCache.explicit?, hexplicit, hpath]⟩
  · cases hexplicit : cache.explicit with
    | nil => simp [LibraryCache.explicit?, hexplicit] at hkept
    | cons e es => rfl

end Histories

/-! ## Histories from the start -/

/-- The cache after some visits. -/
def run (origin : Option String) (past : List Visit) : LibraryCache := past.foldl after (new origin)

theorem run_concat (origin : Option String) (past : List Visit) (v : Visit) :
    run origin (past ++ [v]) = (run origin past).after v := List.foldl_concat ..

/-- Visits before the cache was last cleared make no difference. -/
theorem holds_run (origin : Option String) (past : List Visit) : Holds origin (Visit.recent past) (run origin past) := by
  -- The last visit decides whether the history goes on or starts again.
  induction past using List.reverseRecOn with
  | nil => exact holds_new origin
  | append_singleton past v ih =>
    rw [run_concat, Visit.recent_concat]
    split
    · rename_i hclear
      rw [LibraryCache.after, hclear, clear, ih.defaultPath]
      exact holds_new origin
    · rename_i hclear
      exact ih.after hclear

/-- The answers and the changes of a cache with a history. -/
structure Snapshot (origin : Option String) (past : List Visit) (cache : LibraryCache) : Prop where
  default files :
    match Visit.firstDefault? origin [] (Visit.recent (past ++ [⟨files, .default⟩])) with
    | some library => (cache.defaultLibrary files).1 = .ok library
    | none => ∃ path e, origin = some path ∧ BusLibrary.load files path = .error e ∧
        (cache.defaultLibrary files).1 = .error e
  resolve_none files : (cache.resolve files none).1 = (cache.defaultLibrary files).1
  resolve_some files path : (cache.resolve files (some path)).1 =
    match Visit.firstExplicit? path (Visit.recent (past ++ [⟨files, .resolve (some path)⟩])) with
    | some library => .ok library
    | none => (cache.defaultLibrary files).1
  isLoaded : cache.isLoaded = true ↔
    (Visit.firstDefault? origin [] (Visit.recent past)).isSome ∨
      ∃ path, (Visit.firstExplicit? path (Visit.recent past)).isSome
  failed v e : cache.answer? v = some (.error e) → cache.after v = cache
  default_after v : v.request ≠ .clear →
    (cache.after v).default? = cache.default?.or (v.default? origin (Visit.recent past))
  explicit_after v : v.request ≠ .clear →
    ∀ path, (cache.after v).explicit? path = (cache.explicit? path).or (v.explicit? path)

theorem snapshot_run (origin : Option String) (past : List Visit) : Snapshot origin past (run origin past) := by
  have h := holds_run origin past
  have hrecent (v : Visit) (hv : v.request ≠ .clear) : Visit.recent (past ++ [v]) = Visit.recent past ++ [v] := by
    rw [Visit.recent_concat, if_neg hv]
  refine
    { default := fun files => ?_
      resolve_none := fun files => rfl
      resolve_some := fun files path => ?_
      isLoaded := h.isLoaded
      failed := fun v e => (run origin past).after_of_failure
      default_after := fun v hv => h.default?_after hv
      explicit_after := fun v hv => (run origin past).explicit?_after hv }
  · rw [hrecent _ (by simp)]
    exact h.defaultLibrary files
  · rw [hrecent _ (by simp)]
    exact h.resolve_some files path

end LibraryCache

end CoreForge
