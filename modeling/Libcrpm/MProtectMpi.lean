import Libcrpm.MProtectRuns
import Libcrpm.MpiAgreement

/-!
# The write protection engine in an MPI job

`OpenForMPI` and `checkpoint_for_mpi` of `mprotect_engine.cpp`; each rank checkpoints with
one thread.
-/

namespace Libcrpm.MProtectEngine

open Libcrpm.Persistence Libcrpm.Program
open MetadataV1 (Data Flagged Named Paired Recovered)

variable {n : Nat} {X Y : Data} {t u v : MProtectEngine}

/-- The leader's choice in `checkpoint_for_mpi`, which always goes on. -/
def determineFlushModeForMpi (t : MProtectEngine) : FlushMode :=
  if (List.range kMaxThreads).any fun id => (t.flushRegions id).length = kMaxFlushRegions then
    .wbinvd
  else .useFlushBlocks

/-- `checkpoint_for_mpi` up to the first barrier of the ranks. -/
def persistForMpi (order : Schedules) : Prog MProtectEngine Unit := do
  Prog.act fun t => { t with flushMode := determineFlushModeForMpi t }
  flushSection 1 order

/-- The rest of `OpenForMPI` after `recover_data`. -/
def prepareForMpi : Prog MProtectEngine Unit := do
  Prog.act fun t => { t with hasSnapshot := t.existSnapshot }
  protectAll

/-- A store of a thread to a word. -/
structure Store where
  tid : Nat
  word : Nat
  value : Word

def mpiEngine : MpiEngine MProtectEngine where
  metadata := metadataLens
  content := content
  construct := construct
  prepare := prepareForMpi
  StoreCall := Store
  Valid n call := call.tid < kMaxThreads ∧ call.word < poolWords n
  store call := storeWord call.tid call.word call.value
  Order := Schedules
  Ordered _ := True
  persist := persistForMpi
  updateCopies := updateCopies 1
  finish := finishCheckpoint

/-! ## The laws -/

theorem reaching_determineFlushModeForMpi (h : t.flushMode = determineFlushModeForMpi t) :
    Reaching t := by
  rintro region (hin | ⟨id, hid, hfull⟩)
  · exact Or.inr hin
  · left
    rw [h, determineFlushModeForMpi, if_pos]
    exact List.any_eq_true.mpr ⟨id, List.mem_range.mpr hid, decide_eq_true hfull⟩

theorem wp_prepareForMpi {m m₀ : MetadataV1} (h : Recovered n X m) :
    Prog.wp (fun v => v.mem = m.mem) prepareForMpi
      (fun _ v => Quiet n X v ∧ ∀ o < poolWords n, v.content o = X o ∧
        v.metadata.load .main o = X o ∧ v.metadata.load .back o = X o)
      (metadataLens.set m (construct n m₀)) := by
  rw [prepareForMpi, Prog.wp_bind, Prog.wp_act, protectAll]
  refine ⟨rfl, Prog.wp_bind.mpr (Prog.wp_read.mpr ⟨rfl, Prog.wp_act.mpr ⟨rfl, ?_, fun o ho => ?_⟩⟩)⟩
  · have hquiet := quiet_construct h (construct n m).existSnapshot
    exact { hquiet with
      main := fun o ho _ => hquiet.main o ho rfl
      recorded := fun _ hw => by simp [construct, metadataLens] at hw
      inRange := fun _ hw => by simp [construct, metadataLens] at hw }
  · exact ⟨(h.main o ho).cur_eq, (h.main o ho).cur_eq, h.back.load_eq ho⟩

theorem wp_persistForMpi (h : Quiet n X t) (order : Schedules) :
    Prog.wp (fun v => Named (poolWords n) .back X v.mem) (persistForMpi order)
      (fun _ v => Persisted n X t.content v) t := by
  have hchosen : Quiet n X { t with flushMode := determineFlushModeForMpi t } :=
    ⟨h.nrRegions, h.capacity, h.flagged, h.back, h.main, h.recorded, h.inRange⟩
  rw [persistForMpi, Prog.wp_bind, Prog.wp_act]
  exact ⟨hchosen.named, wp_persist hchosen (reaching_determineFlushModeForMpi rfl)
    Nat.zero_lt_one order⟩

def lawful : mpiEngine.Lawful where
  Quiet := Quiet
  Persisted := Persisted
  Published := Published
  Agreed := Agreed
  quiet_create := quiet_openNew
  get_construct _ _ := rfl
  named h := h.named
  persisted h := ⟨h.flagged, h.paired⟩
  published h := ⟨h.flagged, h.paired⟩
  agreed h := h.paired
  wp_prepare _ h := wp_prepareForMpi h
  wp_store h hvalid := wp_storeWord h hvalid.1 hvalid.2 _
  wp_persist h _ := wp_persistForMpi h _
  wp_nameMain h := wp_nameMain h
  wp_updateCopies h _ := wp_writeBack h Nat.zero_lt_one _
  wp_nameBack h := wp_nameBack h
  wp_finish h hflag := wp_finishCheckpoint h hflag

end Libcrpm.MProtectEngine
