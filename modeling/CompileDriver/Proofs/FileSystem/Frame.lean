import CompileDriver.Proofs.FileSystem.Directories
import CompileDriver.Proofs.FileSystem.Places

/-! # What procedures may change

A procedure that is asked for directories and files only at given places changes a file system only
there, whether it succeeds or stops on the way. Making a directory asks only for places that its
path passes.
-/

namespace CompileDriver

open FileSystem

/-- Calls that make directories only at places in `D` and write files only at places in `F`. -/
def Call.Touches (cwd : Location) (D F : Location → Prop) : Call → Prop
  | makeDirectory p => D (p.destination cwd)
  | create p | write p _ => F (p.destination cwd)
  | spawn _ => False
  | status _ | read _ | list _ | record _ | recorded | warn _ | say _ => True

theorem Call.IsDirectory.touches {c : Call} {cwd : Location} {F : Location → Prop}
    (hc : c.IsDirectory) : c.Touches cwd (fun _ => True) F := by
  cases c <;> first | exact hc.elim | trivial

theorem Call.touches_makeDirectory {cwd : Location} {D F : Location → Prop} {p q : Path}
    (hD : ∀ l, p.Passes cwd l → D l) (hq : q ∈ p :: p.parents) :
    (makeDirectory q).Touches cwd D F := by
  rcases List.mem_cons.1 hq with rfl | hq
  · exact hD _ (Path.passes_destination cwd q)
  · exact hD _ (Path.passes_of_mem_parents hq)

namespace Procedure

variable {α : Type} {h : Host} {D F : Location → Prop}

theorem changesOnly_answer {c : Call} (hc : c.Touches h.directory D F) (w : World) :
    ChangesOnly D F w.files (h.answer c w).2.files := by
  cases c with
  | makeDirectory p =>
    refine World.rel_update ChangesOnly.refl fun fs hfs => ?_
    obtain ⟨hnone, rfl⟩ := makeDirectory_eq_ok hfs
    exact ChangesOnly.put_directory hnone hc
  | create p =>
    refine World.rel_update ChangesOnly.refl fun fs hfs => ?_
    obtain ⟨hdir, f, rfl⟩ := create_eq_ok hfs
    exact ChangesOnly.put_file hdir hc
  | write p data =>
    refine World.rel_update ChangesOnly.refl fun fs hfs => ?_
    obtain ⟨hdir, f, rfl⟩ := write_eq_ok hfs
    exact ChangesOnly.put_file hdir hc
  | spawn => exact hc.elim
  | status | read | list | record | recorded | warn | say => exact ChangesOnly.refl w.files

theorem CallsOnly.changesOnly_run {p : Procedure α}
    (hp : p.CallsOnly (Call.Touches h.directory D F)) (w : World) :
    ChangesOnly D F w.files (p.run h w).2.files :=
  hp.run_rel (R := fun w w' => ChangesOnly D F w.files w'.files)
    (fun w => ChangesOnly.refl w.files) (fun _ _ _ => ChangesOnly.trans)
    (fun _ hc w => changesOnly_answer hc w) w

theorem callsOnly_touches_createDirectories (p : Path) :
    (createDirectories p p.parents).CallsOnly
      (Call.Touches h.directory (p.Passes h.directory) fun _ => False) :=
  callsOnly_createDirectories_of fun _ hq =>
    ⟨trivial, Call.touches_makeDirectory (fun _ => id) hq⟩

theorem callsOnly_touches_ensureDirectory (p : Path) :
    (ensureDirectory p).CallsOnly
      (Call.Touches h.directory (p.Passes h.directory) fun _ => False) :=
  callsOnly_ensureDirectory_of fun _ hq => ⟨trivial, Call.touches_makeDirectory (fun _ => id) hq⟩

end Procedure

end CompileDriver
