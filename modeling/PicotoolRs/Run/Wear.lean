import PicotoolRs.Bootsel.Load
import PicotoolRs.Lib.Cut
import PicotoolRs.Run.Command
import PicotoolRs.Run.Order

/-!
# PicotoolRs.Run.Wear

What a run costs the flash.

Flash wears out with every erase, and a byte can be written once after it. In a run
an address is erased at most once, written at most once, and then in this order
(`wears_once`), however the run ends: nothing is tried again, the merged ranges of
the erases do not meet, and neither do the pieces of the segments.
-/

namespace PicotoolRs

open Lib Constants

/-- Wherever both commands act on flash, the first one erases and the second one
writes. -/
def Command.OneCycle (c c' : Command) : Prop :=
  ∀ a, InFlash a → c.Touches a → c'.Touches a →
    (∃ addr size, c = .flashErase addr size) ∧ ∃ addr size, c' = .write addr size

theorem oneCycle_of_not_touches {c c' : Command}
    (h : (∀ a, InFlash a → ¬ c.Touches a) ∨ ∀ a, InFlash a → ¬ c'.Touches a) :
    c.OneCycle c' := by
  intro a hflash ha ha'
  rcases h with h | h
  · exact absurd ha (h a hflash)
  · exact absurd ha' (h a hflash)

/-! ### The plan -/

section Plan

variable {bound : UInt32} {segs : List Segment} {rs : List (Run UInt8)}
  {erases : List (UInt32 × UInt32)} (hrep : Represents bound segs rs) (hb : SectorBound bound)
  (hplan : planErase segs = some erases)

/-- The ranges of the plan do not meet. -/
theorem planErase_apart (hfits : FitsSectors segs) (hplan : planErase segs = some erases) :
    erases.Pairwise fun e e' => e.1.toNat + e.2.toNat < e'.1.toNat := by
  have hsep := mergedRanges_separated hfits
  obtain rfl := Option.some.inj ((planErase_eq hfits).symm.trans hplan)
  refine List.pairwise_map.mpr (hsep.apart.imp_of_mem fun {r q} hr _ hlt => ?_)
  have hle := hsep.proper r hr
  rw [UInt32.toNat_sub_of_le _ _ hle, Nat.add_sub_cancel' (UInt32.le_iff_toNat_le.mp hle)]
  exact UInt32.lt_iff_toNat_lt.mp hlt

include hrep hb hplan

/-- The erases and the writes of a load. -/
theorem oneCycle_flashSteps :
    (flashSteps erases segs).Pairwise fun step step' => step.cmd.OneCycle step'.cmd := by
  have hquiet : ∀ {step step' : Step}, (∀ a, ¬ step.cmd.Touches a) → step.cmd.OneCycle step'.cmd :=
    fun h => oneCycle_of_not_touches (.inl fun a _ => h a)
  rw [flashSteps, List.pairwise_cons, List.pairwise_cons, List.pairwise_append,
    List.pairwise_map, List.pairwise_map]
  refine ⟨fun _ _ => hquiet fun _ => id, fun _ _ => hquiet fun _ => id, ?_, ?_, ?_⟩
  · refine (planErase_apart (hrep.fitsSectors hb.below) hplan).imp fun {e e'} hlt a _ ha ha' => ?_
    obtain ⟨-, hhi⟩ := ha
    obtain ⟨hlo, -⟩ := ha'
    omega
  · have hasc := pieces_ascending hrep.fitsAddressSpace hrep.gap
    rw [List.pairwise_map] at hasc
    refine hasc.imp_of_mem fun {p q} hp _ hle a _ ha ha' => ?_
    obtain ⟨-, hhi⟩ := ha
    obtain ⟨hlo, -⟩ := ha'
    rw [U32.toNat_ofUsize ((length_le_of_mem_pieces hp).2.trans_lt (by decide))] at hhi
    have hstop : p.toRun.stop = p.addr.toNat + p.data.length := rfl
    rw [hstop, Segment.toRun_start] at hle
    omega
  · intro step hstep step' hstep' a _ _ _
    obtain ⟨e, -, rfl⟩ := List.mem_map.mp hstep
    obtain ⟨p, -, rfl⟩ := List.mem_map.mp hstep'
    exact ⟨⟨_, _, rfl⟩, _, _, rfl⟩

/-- A detection and a load. -/
theorem oneCycle_steps (verify : Bool) :
    (detectSteps ++ loadPlan erases segs verify).Pairwise fun step step' =>
      step.cmd.OneCycle step'.cmd := by
  have hdetect : ∀ step ∈ detectSteps, ∀ step' : Step, step.cmd.OneCycle step'.cmd :=
    fun step hstep _ => oneCycle_of_not_touches (.inl fun _ => touches_detectSteps hstep)
  have hclose : ∀ step' ∈ closeSteps segs verify, ∀ step : Step, step.cmd.OneCycle step'.cmd :=
    forall_mem_closeSteps (fun _ => oneCycle_of_not_touches (.inr fun _ _ => id))
      (fun _ _ => oneCycle_of_not_touches (.inr fun _ _ => id))
      (fun _ => oneCycle_of_not_touches (.inr fun _ _ => id))
  rw [loadPlan_eq, List.pairwise_append, List.pairwise_append]
  refine ⟨?_, ⟨oneCycle_flashSteps hrep hb hplan, ?_, ?_⟩, ?_⟩
  · exact List.pairwise_of_forall_mem_list fun step hstep step' _ => hdetect step hstep step'
  · exact List.pairwise_of_forall_mem_list fun step _ step' hstep' => hclose step' hstep' step
  · exact fun step _ step' hstep' => hclose step' hstep' step
  · exact fun step hstep step' _ => hdetect step hstep step'

end Plan

/-! ### Runs -/

/-- Whatever the device does and wherever the run is cut off: no address of flash is
erased or written twice, and none is erased after it was written. -/
theorem wears_once {w : World} {argv : List Str} {args : LoadArgs} {s : Unit} {tr : BusTrace}
    (h : (runLoad w argv args).Cut s tr) : (commands tr).Pairwise Command.OneCycle := by
  obtain ⟨t, o, s', hrun⟩ := h
  have hwhole : (commands (tr ++ t)).Pairwise Command.OneCycle := by
    generalize tr ++ t = whole at hrun
    cases runLoad_steps hrun with
    | none => exact .nil
    | reset _ => exact .nil
    | detecting _ hdetect =>
        have hpre := (steps_commands hdetect detectSteps_fits).1
        refine List.pairwise_of_forall_mem_list fun c hc c' _ => ?_
        obtain ⟨step, hstep, rfl⟩ := List.mem_map.mp (hpre.subset hc)
        exact oneCycle_of_not_touches (.inl fun _ => touches_detectSteps hstep)
    | loading _ hdetect _ hbound hparse hplan hload =>
        have hall := oneCycle_steps (parse_represents hparse) hbound hplan args.verify
        rw [← List.pairwise_map, List.map_append] at hall
        have hpre := (steps_commands hdetect detectSteps_fits).1
        have hpre' := (steps_commands hload (loadPlan_fits _ _ _)).1
        rw [commands_reset, commands_append]
        exact hall.sublist (hpre.sublist.append hpre'.sublist)
  rw [commands_append] at hwhole
  exact (List.pairwise_append.mp hwhole).1

/-- A device that completes every transfer. -/
theorem wears_once_oneDevice :
    let run := (runLoad (oneDevice oneByteFile) [] ⟨[], true, false, none, none⟩ ()).exec
      Request.completed
    (commands run.1).length = 12 ∧ (commands run.1).Pairwise Command.OneCycle := by
  intro run
  have hrun := Session.exec_runs Request.completed
    (runLoad (oneDevice oneByteFile) [] ⟨[], true, false, none, none⟩) ()
  exact ⟨by decide +kernel, wears_once hrun.cut⟩

end PicotoolRs
