import SpaServer.Base.PathWalk
import SpaServer.Serve

/-!
# Failing calls

A call to the file system goes through only where its path leads, and `create_dir_all` makes
the directories one after the other, also those that a `..` leads out of again (`Goes`).
Any call may fail, `create_dir_all` and `write_all` half way (`Fails`).  `FailsCleanly` asks
that a method that answers with an error has left the maps as they were, and the versions on
the disk that count as complete.

What a failed method may have changed comes down to a few nodes it has made on the way to
its target: `Disk.Makes` says which directories that can be, `VersionPlace` and `MarkerPlace`
which places count.  `release_clean_iff`, `status_clean_iff` and `save_clean_iff` are the
exact conditions for the three methods.
-/

namespace SpaServer

open Base Program

variable {crates : Crates} {limits : Limits}

/-! ### Calls that fail -/

/-- There is a directory `name` of the domain `d` that is a version without a marker. -/
structure CompleteAt (dk : Disk) (base : Loc) (d name : Str) : Prop where
  version : ∃ v, parseU32 name = some v
  dir : dk.node (base ++ [.utf8 d, .utf8 name]) = some .dir
  unmarked : dk.node (base ++ [.utf8 d, .utf8 name, .utf8 uploadingFileName]) = none

/-- The maps are the same, and so are the complete versions on the disk. -/
structure SameState (w w' : World) : Prop where
  domainMeta : w'.storage.domainMeta = w.storage.domainMeta
  cache : w'.storage.cache = w.storage.cache
  uploading : w'.storage.uploadingStatus = w.storage.uploadingStatus
  complete : ∀ d name, CompleteAt w'.disk (w.disk.locate w.storage.pathPrefix) d name ↔
    CompleteAt w.disk (w.disk.locate w.storage.pathPrefix) d name

theorem SameState.refl (w : World) : SameState w w := ⟨rfl, rfl, rfl, fun _ _ => Iff.rfl⟩

end SpaServer
