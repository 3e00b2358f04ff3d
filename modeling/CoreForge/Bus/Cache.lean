import CoreForge.Bus.Builtin
/-!
# Loaded bus libraries

Libraries are loaded when they are first needed, and kept until the cache is
cleared. A library that cannot be loaded is not remembered: the default library
stands in for it, and the next request tries again.
-/

namespace CoreForge

/-- The libraries loaded so far. -/
structure LibraryCache where
  /-- Where the default library is; the built-in one when there is no path. -/
  defaultPath : Option String
  default? : Option BusLibrary
  /-- The other libraries, by the steps of their paths. -/
  explicit : List (List Path.Step × BusLibrary)
deriving Repr

namespace LibraryCache

/-- A cache without libraries. -/
def new (defaultPath : Option String) : LibraryCache := ⟨defaultPath, none, []⟩

/-- The default library as it would be loaded now. -/
def loadDefault (cache : LibraryCache) (files : Files) : Except Failure BusLibrary :=
  match cache.defaultPath with
  | some path => BusLibrary.load files path
  | none => .ok .builtin

/-- The default library, loaded if it is not yet. -/
def defaultLibrary (cache : LibraryCache) (files : Files) : Except Failure BusLibrary × LibraryCache :=
  match cache.default? with
  | some library => (.ok library, cache)
  | none =>
    match cache.loadDefault files with
    | .ok library => (.ok library, { cache with default? := some library })
    | .error e => (.error e, cache)

/-- The library kept for a path. -/
def explicit? (cache : LibraryCache) (path : String) : Option BusLibrary :=
  (cache.explicit.find? (·.1 = Path.steps path)).map (·.2)

/-- The library for a request: the one at the path, loaded if it is not yet, or the
default one when there is no path or nothing can be loaded from it. -/
def resolve (cache : LibraryCache) (files : Files) (path : Option String) :
    Except Failure BusLibrary × LibraryCache :=
  match path with
  | none => cache.defaultLibrary files
  | some path =>
    match cache.explicit? path with
    | some library => (.ok library, cache)
    | none =>
      match BusLibrary.load files path with
      | .ok library => (.ok library, { cache with explicit := (Path.steps path, library) :: cache.explicit })
      | .error _ => cache.defaultLibrary files

/-- The cache without its libraries. -/
def clear (cache : LibraryCache) : LibraryCache := new cache.defaultPath

/-- Some library is loaded. -/
def isLoaded (cache : LibraryCache) : Bool := cache.default?.isSome || !cache.explicit.isEmpty

end LibraryCache

end CoreForge
