import PicotoolRs.Run.Command
import PicotoolRs.Run.Order

/-!
# PicotoolRs.Run.Cost

How long a run can take.

No transfer is repeated and each one has a timeout, so that a run is bounded by
the file, whatever the device does. A block that is accepted costs at most one
erase, one write and one comparison: coalescing makes no more pieces than there
are payloads (`length_pieces_le`), and merging no more erases than there are
segments (`length_planErase_le`).
-/

namespace PicotoolRs

open Lib Constants

/-! ### The plan -/

theorem length_pieces (segs : List Segment) :
    (pieces segs).length = (segs.map fun s => (chunks writeChunk s.data).length).sum := by
  rw [pieces, List.length_flatMap]
  simp [Segment.pieces]

theorem sum_le_length {α : Type} {g : α → Nat} {xs : List α} (h : ∀ x ∈ xs, g x ≤ 1) :
    (xs.map g).sum ≤ xs.length := by
  induction xs with
  | nil => exact Nat.le_refl _
  | cons x xs ih =>
      rw [List.forall_mem_cons] at h
      have hxs := ih h.2
      simp only [List.map_cons, List.sum_cons, List.length_cons]
      omega

/-- There are no more pieces than payloads, if each fits a piece. -/
theorem length_pieces_le {bound : UInt32} {segs : List Segment} {rs : List (Run UInt8)}
    (hrep : Represents bound segs rs) (hlen : ∀ r ∈ rs, r.data.length ≤ writeChunk) :
    (pieces segs).length ≤ rs.length := by
  have hone : ∀ r ∈ rs, (chunks writeChunk r.data).length ≤ 1 := by
    intro r hr
    have hbound := (length_chunks_bounds writeChunk_pos r.data).2
    have hle := hlen r hr
    have hlt : (chunks writeChunk r.data).length * writeChunk < 2 * writeChunk := by omega
    exact Nat.lt_succ_iff.mp (Nat.lt_of_mul_lt_mul_right hlt)
  have hsum := sum_coalesce_le (g := fun l => (chunks writeChunk l).length)
    (length_chunks_append_le writeChunk_pos) hrep.coalesced
  rw [List.map_map] at hsum
  rw [length_pieces]
  exact hsum.trans (sum_le_length hone)

/-- There are no more segments than payloads. -/
theorem length_segments_le {bound : UInt32} {segs : List Segment} {rs : List (Run UInt8)}
    (hrep : Represents bound segs rs) : segs.length ≤ rs.length := by
  have hsum := sum_coalesce_le (g := fun _ => 1) (by simp) hrep.coalesced
  simpa [Function.comp_def] using hsum

/-- There are no more erases than segments. -/
theorem length_planErase_le {segs : List Segment} {erases : List (UInt32 × UInt32)}
    (hfits : FitsSectors segs) (hplan : planErase segs = some erases) :
    erases.length ≤ segs.length := by
  obtain rfl := Option.some.inj ((planErase_eq hfits).symm.trans hplan)
  have hle := Intervals.length_merge_le
    ((segs.map Segment.range).insertionSort fun r q => r.1 ≤ q.1)
  rw [List.length_insertionSort, List.length_map] at hle
  rwa [List.length_map]

/-! ### Transfers -/

/-- What the transfers of a trace come to, each counted by `f`. -/
def total (f : Request → Nat) (tr : BusTrace) : Nat := (tr.map fun ev => f ev.1).sum

@[simp] theorem total_append (f : Request → Nat) (t₁ t₂ : BusTrace) :
    total f (t₁ ++ t₂) = total f t₁ + total f t₂ := by
  simp [total]

section Total

variable {f : Request → Nat} {c : Command → Nat}
  (hc : ∀ cmd d data, ((Command.script d cmd data).map f).sum = c cmd)

include hc

/-- A step costs no more than all transfers of its command. -/
theorem stepRun_total {d : Device} {step : Step} {tr : BusTrace} {o : Outcome LoadError Unit}
    (h : StepRun d step tr o) : total f tr ≤ c step.cmd := by
  obtain ⟨o', ha⟩ := h.attempt
  obtain ⟨rest, hscript⟩ := ha.map_fst_prefix
  rw [← hc step.cmd d step.data, ← Step.script, ← hscript, List.map_append, List.map_map,
    List.sum_append]
  exact Nat.le_add_right _ _

theorem steps_total {steps : List Step} {d d' : Device} {tr : BusTrace}
    {o : Outcome LoadError Unit} (h : LoopRuns Step.perform steps d tr o d')
    (hfits : ∀ step ∈ steps, step.Fits) :
    total f tr ≤ (steps.map fun step => c step.cmd).sum := by
  induction h with
  | nil => exact Nat.zero_le _
  | cons hstep _ ih =>
      rw [List.forall_mem_cons] at hfits
      rw [total_append, List.map_cons, List.sum_cons]
      exact Nat.add_le_add (stepRun_total hc (perform_runs hfits.1 hstep).2) (ih hfits.2)
  | stop hstep _ =>
      rw [List.map_cons, List.sum_cons]
      exact (stepRun_total hc (perform_runs (hfits _ List.mem_cons_self) hstep).2).trans
        (Nat.le_add_right _ _)

end Total

/-- The transfers of a command. -/
def Command.transfers (cmd : Command) : Nat :=
  match cmd.dataPhase with
  | .none => 2
  | _ => 3

/-- The seconds until the last transfer of a command has timed out. -/
def Command.seconds (cmd : Command) : Nat :=
  match cmd.dataPhase with
  | .none => commandTimeout + cmd.ackTimeout
  | _ => 3 * commandTimeout

theorem script_transfers (cmd : Command) (d : Device) (data : List UInt8) :
    ((cmd.script d data).map fun _ => 1).sum = cmd.transfers := by
  cases cmd <;> rfl

theorem script_seconds (cmd : Command) (d : Device) (data : List UInt8) :
    ((cmd.script d data).map Request.timeout).sum = cmd.seconds := by
  cases cmd <;> rfl

/-! ### Plans -/

theorem sum_map_const {α : Type} {g : α → Nat} {xs : List α} {k : Nat} (h : ∀ x, g x = k) :
    (xs.map g).sum = xs.length * k := by
  induction xs with
  | nil => simp
  | cons x xs ih => rw [List.map_cons, List.sum_cons, ih, h x, List.length_cons, Nat.succ_mul,
      Nat.add_comm]

/-- The parts that a plan comes to: `fixed` for the commands that there are once,
and one amount for each command that there are many of. -/
theorem sum_loadPlan {c : Command → Nat} {erase write read : Nat}
    (herase : ∀ addr size, c (.flashErase addr size) = erase)
    (hwrite : ∀ addr size, c (.write addr size) = write)
    (hread : ∀ addr size, c (.read addr size) = read) (erases : List (UInt32 × UInt32))
    (segs : List Segment) (verify : Bool) :
    ((loadPlan erases segs verify).map fun step => c step.cmd).sum =
      c (.exclusiveAccess .exclusive) + c .exitXip + erases.length * erase +
        (pieces segs).length * write +
        (if verify then c .enterCmdXip + (pieces segs).length * read else 0) +
        c (.reboot 0 sramEnd rebootDelayMs) := by
  have herases : ((erases.map fun e => Step.flashErase e.1 e.2).map fun s => c s.cmd).sum =
      erases.length * erase := by
    rw [List.map_map]
    exact sum_map_const fun e => herase e.1 e.2
  have hwrites : (((pieces segs).map Step.flashWrite).map fun s => c s.cmd).sum =
      (pieces segs).length * write := by
    rw [List.map_map]
    exact sum_map_const fun p => hwrite p.addr _
  have hreads : (((pieces segs).map Step.compare).map fun s => c s.cmd).sum =
      (pieces segs).length * read := by
    rw [List.map_map]
    exact sum_map_const fun p => hread p.addr _
  rw [loadPlan, List.map_append, List.map_append, List.map_append, List.map_append,
    List.sum_append, List.sum_append, List.sum_append, List.sum_append, herases, hwrites]
  cases verify with
  | true =>
      simp only [if_true, List.map_cons, List.map_nil, List.sum_cons, List.sum_nil, hreads,
        Nat.add_zero]
      rfl
  | false => simp [Step.cmd]

/-! ### Runs -/

/-- The blocks of a file that are for this target. -/
def targeted (bytes : List UInt8) : Nat := (accepted (fileBlocks bytes)).length

section Runs

variable {f : Request → Nat} {c : Command → Nat} {erase write read : Nat}
  (hc : ∀ cmd d data, ((Command.script d cmd data).map f).sum = c cmd)
  (herase : ∀ addr size, c (.flashErase addr size) = erase)
  (hwrite : ∀ addr size, c (.write addr size) = write)
  (hread : ∀ addr size, c (.read addr size) = read)

include hc herase hwrite hread

/-- What a load comes to, from the blocks of the file. -/
theorem load_total {bytes : List UInt8} {bound : UInt32} {segs : List Segment}
    {erases : List (UInt32 × UInt32)} {verify : Bool} {d d' : Device} {tr : BusTrace}
    {o : Outcome LoadError Unit} (hb : SectorBound bound) (hparse : parse bytes bound = .ok segs)
    (hplan : planErase segs = some erases)
    (h : LoopRuns Step.perform (loadPlan erases segs verify) d tr o d') :
    total f tr ≤ c (.exclusiveAccess .exclusive) + c .exitXip + targeted bytes * (erase + write) +
      (if verify then c .enterCmdXip + targeted bytes * read else 0) +
      c (.reboot 0 sramEnd rebootDelayMs) := by
  have hrep := parse_represents hparse
  have hlen : ∀ r ∈ accepted (fileBlocks bytes), r.data.length ≤ writeChunk := by
    intro r hr
    obtain ⟨b, -, rfl⟩ := List.mem_map.mp hr
    have htake := List.length_take_le' b.payloadSize.toNat b.data
    rw [b.length_data] at htake
    exact htake.trans (by decide)
  have hpieces := length_pieces_le hrep hlen
  have herases := (length_planErase_le (hrep.fitsSectors hb.below) hplan).trans
    (length_segments_le hrep)
  have htotal := steps_total hc h (loadPlan_fits erases segs verify)
  rw [sum_loadPlan herase hwrite hread] at htotal
  have he := Nat.mul_le_mul_right erase herases
  have hw := Nat.mul_le_mul_right write hpieces
  have hr := Nat.mul_le_mul_right read hpieces
  rw [← targeted] at he hw hr
  rw [Nat.mul_add]
  cases verify <;> simp only [if_true, Bool.false_eq_true, if_false] at htotal ⊢ <;> omega

/-- What a run comes to: the reset, the detection and the load. -/
theorem runLoad_total {w : World} {argv : List Str} {args : LoadArgs} {bytes : List UInt8}
    {s s' : Unit} {tr : BusTrace} {o : Outcome RunError Unit} {reset : Nat}
    (hreset : ∀ d, f (.reset d) = reset) (hbytes : w.readFile args.file = .ok bytes)
    (h : (runLoad w argv args).Runs s tr o s') :
    total f tr ≤ reset + (detectSteps.map fun step => c step.cmd).sum +
      (c (.exclusiveAccess .exclusive) + c .exitXip + targeted bytes * (erase + write) +
        (if args.verify then c .enterCmdXip + targeted bytes * read else 0) +
        c (.reboot 0 sramEnd rebootDelayMs)) := by
  have hone : ∀ {d : Device} {c : Completion} {t : BusTrace},
      total f ((Request.reset d, c) :: t) = reset + total f t := by
    intro d c t
    rw [← hreset d]
    rfl
  cases runLoad_steps h with
  | none => exact Nat.zero_le _
  | reset _ =>
      rw [hone]
      exact (Nat.le_add_right _ _).trans (Nat.le_add_right _ _)
  | detecting _ hdetect =>
      have hd := steps_total hc hdetect detectSteps_fits
      rw [hone]
      omega
  | loading _ hdetect hbytes' hbound hparse hplan hload =>
      obtain rfl := Except.ok.inj (hbytes.symm.trans hbytes')
      have hd := steps_total hc hdetect detectSteps_fits
      have hl := load_total hc herase hwrite hread hbound hparse hplan hload
      rw [hone, total_append]
      omega

end Runs

/-- Whatever the device does, a run makes a number of transfers, and waits for a
time, that the blocks of the file for this target bound: at most five transfers
and fifty seconds for each, and three transfers and fifteen seconds more if it
verifies. -/
theorem runLoad_bounded {w : World} {argv : List Str} {args : LoadArgs} {bytes : List UInt8}
    {s s' : Unit} {tr : BusTrace} {o : Outcome RunError Unit}
    (hbytes : w.readFile args.file = .ok bytes) (h : (runLoad w argv args).Runs s tr o s') :
    tr.length ≤ 19 + 5 * targeted bytes +
        (if args.verify then 2 + 3 * targeted bytes else 0) ∧
      (tr.map fun ev => ev.1.timeout).sum ≤ 95 + 50 * targeted bytes +
        if args.verify then 10 + 15 * targeted bytes else 0 := by
  constructor
  · have herase : ∀ addr size, Command.transfers (.flashErase addr size) = 2 := fun _ _ => rfl
    have hwrite : ∀ addr size, Command.transfers (.write addr size) = 3 := fun _ _ => rfl
    have hread : ∀ addr size, Command.transfers (.read addr size) = 3 := fun _ _ => rfl
    have htotal := runLoad_total script_transfers herase hwrite hread (fun _ => rfl) hbytes h
    have hlength : total (fun _ => 1) tr = tr.length := by simp [total]
    have hdetect : (detectSteps.map fun step => step.cmd.transfers).sum = 12 := rfl
    rw [hlength, hdetect] at htotal
    simp only [Command.transfers, Command.dataPhase] at htotal
    cases hverify : args.verify <;> simp only [hverify, if_true, Bool.false_eq_true, if_false]
      at htotal ⊢ <;> omega
  · have herase : ∀ addr size, Command.seconds (.flashErase addr size) = 35 := fun _ _ => rfl
    have hwrite : ∀ addr size, Command.seconds (.write addr size) = 15 := fun _ _ => rfl
    have hread : ∀ addr size, Command.seconds (.read addr size) = 15 := fun _ _ => rfl
    have htotal := runLoad_total script_seconds herase hwrite hread (fun _ => rfl) hbytes h
    have hdetect : (detectSteps.map fun step => step.cmd.seconds).sum = 60 := rfl
    rw [total, hdetect] at htotal
    simp only [Command.seconds, Command.dataPhase, Command.ackTimeout, commandTimeout] at htotal
    cases hverify : args.verify <;> simp only [hverify, if_true, Bool.false_eq_true, if_false]
      at htotal ⊢ <;> omega

/-- A device that completes every transfer. -/
theorem runLoad_bounded_oneDevice :
    ((runLoad (oneDevice oneByteFile) [] ⟨[], true, false, none, none⟩ ()).exec
      Request.completed).1.length ≤ 19 + 5 * 1 + (2 + 3 * 1) := by
  have hread : (oneDevice oneByteFile).readFile [] = .ok oneByteFile := rfl
  have hbound := (runLoad_bounded hread (Session.exec_runs Request.completed
    (runLoad (oneDevice oneByteFile) [] ⟨[], true, false, none, none⟩) ())).1
  have htargeted : targeted oneByteFile = 1 := by
    rw [targeted, oneByteFile, fileBlocks_fileBytes]
    decide +kernel
  rwa [htargeted] at hbound

end PicotoolRs
