import PicotoolRs.Load.Plan
import PicotoolRs.Load.Sectors
import PicotoolRs.Run.Detect

/-!
# PicotoolRs.Run.Flash

What a run can look like once the device is open.

The detection comes first. Unless it panicked, the file is parsed against the
bound it gave, and what the parser returns is loaded. `flashFile_runs` takes a
run apart into these phases; the proofs about whole runs start from there.
-/

namespace PicotoolRs

open Lib Constants

/-- The bound that a detection which came to `r` gives. -/
structure BoundOf (r : Outcome DeviceError (Option UInt32)) (bound : UInt32) : Prop where
  sector : SectorBound bound
  ne_panic : r ≠ .panic
  /-- After a failed detection the bound is the conservative one. -/
  fallback : (∃ e, r = .err e) → bound = flashEnd

/-- The runs of `flashFile`. -/
inductive FlashRun (path : Str) (bytes : List UInt8) (verify : Bool) (d : Device) :
    BusTrace → Outcome RunError Unit → Prop
  /-- The detection panicked. -/
  | panicked {t : BusTrace} {d₁ : Device} :
      Device.detectFlashSize.Runs d t .panic d₁ → FlashRun path bytes verify d t .panic
  /-- The file was rejected. -/
  | rejected {t : BusTrace} {r : Outcome DeviceError (Option UInt32)} {d₁ : Device}
      {bound : UInt32} {e : Uf2Error} :
      Device.detectFlashSize.Runs d t r d₁ → BoundOf r bound → parse bytes bound = .err e →
      FlashRun path bytes verify d t (.err (.parsingFile path e))
  /-- The file was loaded. -/
  | loaded {t₁ t₂ : BusTrace} {r : Outcome DeviceError (Option UInt32)} {d₁ d₂ : Device}
      {bound : UInt32} {segs : List Segment} {erases : List (UInt32 × UInt32)}
      {o : Outcome LoadError Unit} :
      Device.detectFlashSize.Runs d t₁ r d₁ → BoundOf r bound → parse bytes bound = .ok segs →
      planErase segs = some erases →
      LoopRuns Step.perform (loadPlan erases segs verify) d₁ t₂ o d₂ →
      FlashRun path bytes verify d (t₁ ++ t₂) (o.mapErr .flashing)

/-- A load of segments below the bound performs its plan. -/
theorem load_runs {bound : UInt32} {segs : List Segment} {rs : List (Run UInt8)} {verify : Bool}
    {d d' : Device} {tr : BusTrace} {o : Outcome LoadError Unit} (hrep : Represents bound segs rs)
    (hb : SectorBound bound) (h : (load segs verify).Runs d tr o d') :
    ∃ erases, planErase segs = some erases ∧
      LoopRuns Step.perform (loadPlan erases segs verify) d tr o d' := by
  have hplan := planErase_eq (hrep.fitsSectors hb.below)
  rw [load_eq verify hrep.fitsAddressSpace hplan, Session.runs_forM] at h
  exact ⟨_, hplan, h⟩

/-- The phases of a run. -/
theorem flashFile_runs {path : Str} {bytes : List UInt8} {verify : Bool} {d d' : Device}
    {tr : BusTrace} {o : Outcome RunError Unit}
    (h : (flashFile path bytes verify).Runs d tr o d') : FlashRun path bytes verify d tr o := by
  rcases Session.runs_bind.mp h with ⟨bound, d₁, t₁, t₂, rfl, h₁, h₂⟩ | ⟨e, rfl, h₁⟩ | ⟨rfl, h₁⟩
  · obtain ⟨r, hdetect, ⟨-, ho⟩ | ⟨bound', hb, hr, ho, hfall⟩⟩ := resolveFlashEnd_runs h₁
    · simp at ho
    obtain rfl := Outcome.ok.inj ho
    have hbound : BoundOf r bound := ⟨hb, hr, hfall⟩
    cases hparse : parse bytes bound with
    | panic => exact absurd hparse (parse_ne_panic bytes bound)
    | err e =>
        rw [hparse] at h₂
        obtain ⟨rfl, rfl, -⟩ := Session.runs_ofOutcome.mp h₂
        rw [List.append_nil]
        exact .rejected hdetect hbound hparse
    | ok segs =>
        rw [hparse] at h₂
        obtain ⟨o', rfl, hload⟩ := Session.runs_mapErr.mp
          (show ((load segs verify).mapErr RunError.flashing).Runs d₁ t₂ o d' from h₂)
        obtain ⟨erases, hplan, hloop⟩ := load_runs (parse_represents hparse) hb hload
        exact .loaded hdetect hbound hparse hplan hloop
  · obtain ⟨r, -, ⟨-, ho⟩ | ⟨_, -, -, ho, -⟩⟩ := resolveFlashEnd_runs h₁ <;> simp at ho
  · obtain ⟨r, hdetect, ⟨rfl, -⟩ | ⟨_, -, -, ho, -⟩⟩ := resolveFlashEnd_runs h₁
    · exact .panicked hdetect
    · simp at ho

end PicotoolRs
