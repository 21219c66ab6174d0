import PicotoolRs.Load.Steps
import PicotoolRs.Uf2.Sound

/-!
# PicotoolRs.Load.Plan

`load` as one list of steps.

The nested loops of `load` run over segments and, in each, over chunks at
addresses computed on the way. `pieces` are the chunks with their addresses and
`loadPlan` is the whole list of steps; for segments that fit the address space,
`load` is performing the plan (`load_eq`).
-/

namespace PicotoolRs

open Lib Constants

/-- The chunks of a segment, each at its address. -/
def Segment.pieces (s : Segment) : List Segment :=
  (chunks writeChunk s.data).zipIdx.map fun c =>
    ⟨s.addr + U32.ofUsize (c.2 * writeChunk), c.1⟩

/-- The chunks of all segments. -/
def pieces (segs : List Segment) : List Segment := segs.flatMap Segment.pieces

/-- The steps of `load`. -/
def loadPlan (erases : List (UInt32 × UInt32)) (segs : List Segment) (verify : Bool) :
    List Step :=
  [.exclusiveAccess, .exitXip] ++ erases.map (fun e => .flashErase e.1 e.2) ++
    (pieces segs).map .flashWrite ++
    (if verify then .enterCmdXip :: (pieces segs).map .compare else []) ++ [.reboot]

/-- No segment's end overflows. -/
def FitsAddressSpace (segs : List Segment) : Prop := ∀ s ∈ segs, s.toRun.stop < 2 ^ 32

theorem Represents.fitsAddressSpace {flashEnd : UInt32} {segs : List Segment}
    {rs : List (Run UInt8)} (h : Represents flashEnd segs rs) : FitsAddressSpace segs :=
  fun _ hs => h.stop_lt hs

theorem writeChunk_pos : 0 < writeChunk := by decide

/-! ### Pieces -/

/-- Where the chunk of index `i` starts. -/
theorem stop_le_of_mem_zipIdx {s : Segment} {c : List UInt8 × Nat}
    (h : c ∈ (chunks writeChunk s.data).zipIdx) :
    s.addr.toNat + c.2 * writeChunk + c.1.length ≤ s.toRun.stop := by
  have hmem : (⟨s.addr.toNat + c.2 * writeChunk, c.1⟩ : Run UInt8) ∈
      layOut s.addr.toNat (chunks writeChunk s.data) := by
    rw [← map_zipIdx_chunks writeChunk_pos]
    exact List.mem_map_of_mem h
  have hstop := stop_le_of_mem_layOut hmem
  rwa [flatten_chunks writeChunk_pos] at hstop

/-- The address of a chunk is computed exactly. -/
theorem add_chunkOffset {s : Segment} (hs : s.toRun.stop < 2 ^ 32) {c : List UInt8 × Nat}
    (h : c ∈ (chunks writeChunk s.data).zipIdx) :
    (U32.ofUsize (c.2 * writeChunk)).toNat = c.2 * writeChunk ∧
      U32.add s.addr (U32.ofUsize (c.2 * writeChunk)) =
        some (s.addr + U32.ofUsize (c.2 * writeChunk)) := by
  have hstop := stop_le_of_mem_zipIdx h
  have hofs : (U32.ofUsize (c.2 * writeChunk)).toNat = c.2 * writeChunk :=
    U32.toNat_ofUsize (by omega)
  refine ⟨hofs, if_pos ?_⟩
  rw [hofs]
  omega

/-- The pieces of a segment, laid end to end. -/
theorem Segment.map_toRun_pieces {s : Segment} (hs : s.toRun.stop < 2 ^ 32) :
    s.pieces.map Segment.toRun = layOut s.addr.toNat (chunks writeChunk s.data) := by
  rw [← map_zipIdx_chunks writeChunk_pos, Segment.pieces, List.map_map]
  refine List.map_congr_left fun c hc => ?_
  obtain ⟨hofs, hadd⟩ := add_chunkOffset hs hc
  have haddr := U32.add_eq_some_iff.mp hadd
  rw [hofs] at haddr
  exact congrArg (fun a => (⟨a, c.1⟩ : Run UInt8)) haddr

theorem Segment.data_of_mem_pieces {s p : Segment} (h : p ∈ s.pieces) :
    p.data ∈ chunks writeChunk s.data := by
  obtain ⟨c, hc, rfl⟩ := List.mem_map.mp h
  exact List.fst_mem_of_mem_zipIdx hc

theorem length_le_of_mem_pieces {segs : List Segment} {p : Segment} (h : p ∈ pieces segs) :
    p.data ≠ [] ∧ p.data.length ≤ writeChunk := by
  obtain ⟨s, -, hp⟩ := List.mem_flatMap.mp h
  have hc := Segment.data_of_mem_pieces hp
  exact ⟨ne_nil_of_mem_chunks writeChunk_pos hc, length_le_of_mem_chunks writeChunk_pos hc⟩

/-- The pieces hold what the segments hold. -/
theorem holds_pieces {segs : List Segment} (hfits : FitsAddressSpace segs) (a : Nat) (v : UInt8) :
    (∃ p ∈ pieces segs, p.toRun.Holds a v) ↔ ∃ s ∈ segs, s.toRun.Holds a v := by
  have hseg : ∀ s ∈ segs, ((∃ p ∈ s.pieces, p.toRun.Holds a v) ↔ s.toRun.Holds a v) := by
    intro s hs
    have hlay := holds_layOut s.addr.toNat (chunks writeChunk s.data) a v
    rw [← Segment.map_toRun_pieces (hfits s hs), flatten_chunks writeChunk_pos] at hlay
    simp only [List.mem_map, exists_exists_and_eq_and] at hlay
    exact hlay
  constructor
  · intro h
    obtain ⟨p, hp, hv⟩ := h
    obtain ⟨s, hs, hps⟩ := List.mem_flatMap.mp hp
    exact ⟨s, hs, (hseg s hs).mp ⟨p, hps, hv⟩⟩
  · intro h
    obtain ⟨s, hs, hv⟩ := h
    obtain ⟨p, hp, hpv⟩ := (hseg s hs).mpr hv
    exact ⟨p, List.mem_flatMap.mpr ⟨s, hs, hp⟩, hpv⟩

/-- The pieces cover what the payloads cover. -/
theorem Represents.covers_pieces {flashEnd : UInt32} {segs : List Segment} {rs : List (Run UInt8)}
    (h : Represents flashEnd segs rs) (a : Nat) :
    (∃ p ∈ pieces segs, p.toRun.Covers a) ↔ ∃ r ∈ rs, r.Covers a := by
  have hholds : ∀ v, (∃ p ∈ pieces segs, p.toRun.Holds a v) ↔ ∃ r ∈ rs, r.Holds a v := fun v =>
    (holds_pieces h.fitsAddressSpace a v).trans (h.holds a v)
  constructor
  · intro hpieces
    obtain ⟨p, hp, hpa⟩ := hpieces
    obtain ⟨v, hv⟩ := hpa.holds
    obtain ⟨r, hr, hrv⟩ := (hholds v).mp ⟨p, hp, hv⟩
    exact ⟨r, hr, hrv.covers⟩
  · intro hrs
    obtain ⟨r, hr, hra⟩ := hrs
    obtain ⟨v, hv⟩ := hra.holds
    obtain ⟨p, hp, hpv⟩ := (hholds v).mpr ⟨r, hr, hv⟩
    exact ⟨p, hp, hpv.covers⟩

/-- The pieces of segments in address order are in address order. -/
theorem pieces_ascending {segs : List Segment} (hfits : FitsAddressSpace segs)
    (hgap : segs.Pairwise fun s t => s.toRun.stop < t.addr.toNat) :
    ((pieces segs).map Segment.toRun).Pairwise fun p q => p.stop ≤ q.start := by
  rw [pieces, List.map_flatMap, List.pairwise_flatMap]
  constructor
  · intro s hs
    rw [Segment.map_toRun_pieces (hfits s hs)]
    exact layOut_ascending _ _
  · refine hgap.imp_of_mem fun {s t} hs ht hst p hp q hq => ?_
    rw [Segment.map_toRun_pieces (hfits s hs)] at hp
    rw [Segment.map_toRun_pieces (hfits t ht)] at hq
    have hstop := stop_le_of_mem_layOut hp
    rw [flatten_chunks writeChunk_pos] at hstop
    exact hstop.trans (hst.le.trans (start_le_of_mem_layOut hq))

/-- No two pieces start at the same address. -/
theorem pieces_eq_of_addr {segs : List Segment} (hfits : FitsAddressSpace segs)
    (hgap : segs.Pairwise fun s t => s.toRun.stop < t.addr.toNat) {p q : Segment}
    (hp : p ∈ pieces segs) (hq : q ∈ pieces segs) (heq : p.addr = q.addr) : p = q := by
  refine Segment.toRun_injective (eq_of_start_eq (pieces_ascending hfits hgap) ?_
    (List.mem_map_of_mem hp) (List.mem_map_of_mem hq) (congrArg UInt32.toNat heq))
  intro r hr
  obtain ⟨p', hp', rfl⟩ := List.mem_map.mp hr
  exact (length_le_of_mem_pieces hp').1

/-! ### Loops over steps -/

theorem forM_congr {α : Type} {xs : List α} {f g : α → Loader Unit} (h : ∀ x ∈ xs, f x = g x) :
    (forM xs f : Loader PUnit) = forM xs g := by
  induction xs with
  | nil => rfl
  | cons x xs ih =>
      rw [List.forM_cons, List.forM_cons, h x (List.mem_cons_self ..),
        ih fun y hy => h y (List.mem_cons_of_mem _ hy)]

theorem forM_map {α β : Type} {xs : List α} {f : α → β} {g : β → Loader Unit} :
    (forM (xs.map f) g : Loader PUnit) = forM xs fun x => g (f x) := by
  induction xs with
  | nil => rfl
  | cons x xs ih => rw [List.map_cons, List.forM_cons, List.forM_cons, ih]

theorem forM_flatMap {α β : Type} {xs : List α} {f : α → List β} {g : β → Loader Unit} :
    (forM (xs.flatMap f) g : Loader PUnit) = forM xs fun x => forM (f x) g := by
  induction xs with
  | nil => rfl
  | cons x xs ih => rw [List.flatMap_cons, List.forM_append, List.forM_cons, ih]

/-- Writing a segment is writing its pieces. -/
theorem writeSegment_eq {s : Segment} (hs : s.toRun.stop < 2 ^ 32) :
    writeSegment s = forM s.pieces fun p => (Step.flashWrite p).perform := by
  rw [Segment.pieces, forM_map]
  refine forM_congr fun c hc => ?_
  simp only [chunkAddr, (add_chunkOffset hs hc).2, Session.ofOption_some_bind]
  rfl

/-- Verifying a segment is comparing its pieces. -/
theorem verifySegment_eq {s : Segment} (hs : s.toRun.stop < 2 ^ 32) :
    verifySegment s = forM s.pieces fun p => (Step.compare p).perform := by
  rw [Segment.pieces, forM_map]
  refine forM_congr fun c hc => ?_
  simp only [chunkAddr, (add_chunkOffset hs hc).2, Session.ofOption_some_bind]
  rfl

/-- `load` performs the plan. -/
theorem load_eq {segs : List Segment} {erases : List (UInt32 × UInt32)} (verify : Bool)
    (hfits : FitsAddressSpace segs) (hplan : planErase segs = some erases) :
    load segs verify = forM (loadPlan erases segs verify) Step.perform := by
  have hwrite : (forM segs writeSegment : Loader PUnit) =
      forM ((pieces segs).map .flashWrite) Step.perform := by
    rw [forM_map, pieces, forM_flatMap]
    exact forM_congr fun s hs => writeSegment_eq (hfits s hs)
  have hverify : (forM segs verifySegment : Loader PUnit) =
      forM ((pieces segs).map .compare) Step.perform := by
    rw [forM_map, pieces, forM_flatMap]
    exact forM_congr fun s hs => verifySegment_eq (hfits s hs)
  have herase : (forM erases fun e => Loader.run (Device.flashErase e.1 e.2) : Loader PUnit) =
      forM (erases.map fun e => Step.flashErase e.1 e.2) Step.perform := by
    rw [forM_map]
    rfl
  have hreboot : Loader.run (Device.reboot 0 sramEnd rebootDelayMs) = Step.reboot.perform := rfl
  have hlast : (forM [.reboot] Step.perform : Loader PUnit) = Step.reboot.perform := by
    rw [List.forM_cons, List.forM_nil]
    exact bind_pure _
  rw [load, loadPlan, List.forM_append, List.forM_append, List.forM_append, List.forM_append,
    ← herase, ← hwrite, hlast]
  simp only [hplan, Session.ofOption_some_bind, List.forM_cons, List.forM_nil, bind_assoc,
    pure_bind]
  cases verify with
  | true =>
      simp only [if_true, List.forM_cons, bind_assoc, hverify]
      rfl
  | false =>
      simp only [Bool.false_eq_true, if_false, List.forM_nil, pure_bind]
      rfl

/-- Without a plan, a load prepares the device and panics. -/
theorem load_runs_of_no_plan {segs : List Segment} {verify : Bool} {d d' : Device} {tr : BusTrace}
    {o : Outcome LoadError Unit} (hplan : planErase segs = none)
    (h : (load segs verify).Runs d tr o d') :
    ∃ o', LoopRuns Step.perform [.exclusiveAccess, .exitXip] d tr o' d' ∧
      (o' = .ok () ∧ o = .panic ∨ o' ≠ .ok () ∧ o = o') := by
  have hload : load segs verify =
      (forM [.exclusiveAccess, .exitXip] Step.perform >>= fun _ => Session.ofOutcome .panic) := by
    simp only [load, hplan, Session.ofOption_none_bind, List.forM_cons, List.forM_nil, bind_assoc,
      pure_bind]
    rfl
  rw [hload] at h
  rcases Session.runs_bind.mp h with ⟨⟨⟩, d₁, t₁, t₂, rfl, h₁, h₂⟩ | ⟨e, rfl, h₁⟩ | ⟨rfl, h₁⟩
  · obtain ⟨rfl, rfl, rfl⟩ := Session.runs_ofOutcome.mp h₂
    rw [List.append_nil]
    exact ⟨.ok (), Session.runs_forM.mp h₁, .inl ⟨rfl, rfl⟩⟩
  · exact ⟨.err e, Session.runs_forM.mp h₁, .inr ⟨by simp, rfl⟩⟩
  · exact ⟨.panic, Session.runs_forM.mp h₁, .inr ⟨by simp, rfl⟩⟩

/-! ### Shape of the plan -/

/-- The steps up to the last write. -/
def flashSteps (erases : List (UInt32 × UInt32)) (segs : List Segment) : List Step :=
  .exclusiveAccess :: .exitXip :: (erases.map (fun e => .flashErase e.1 e.2) ++
    (pieces segs).map .flashWrite)

/-- The steps after the last write. -/
def closeSteps (segs : List Segment) (verify : Bool) : List Step :=
  (if verify then .enterCmdXip :: (pieces segs).map .compare else []) ++ [.reboot]

theorem loadPlan_eq (erases : List (UInt32 × UInt32)) (segs : List Segment) (verify : Bool) :
    loadPlan erases segs verify = flashSteps erases segs ++ closeSteps segs verify := by
  simp [loadPlan, flashSteps, closeSteps]

/-- What follows the last write. -/
theorem forall_mem_closeSteps {P : Step → Prop} {segs : List Segment} {verify : Bool}
    (henter : P .enterCmdXip) (hcompare : ∀ piece, P (.compare piece)) (hreboot : P .reboot) :
    ∀ step ∈ closeSteps segs verify, P step := by
  intro step hstep
  cases verify with
  | false =>
      obtain rfl : step = .reboot := by simpa [closeSteps] using hstep
      exact hreboot
  | true =>
      simp only [closeSteps, if_true, List.mem_append, List.mem_cons, List.mem_map,
        List.not_mem_nil, or_false] at hstep
      rcases hstep with (rfl | ⟨piece, -, rfl⟩) | rfl
      · exact henter
      · exact hcompare piece
      · exact hreboot

/-- The steps a plan is made of. -/
inductive LoadStep (erases : List (UInt32 × UInt32)) (segs : List Segment) : Step → Prop
  | exclusiveAccess : LoadStep erases segs .exclusiveAccess
  | exitXip : LoadStep erases segs .exitXip
  | flashErase {e : UInt32 × UInt32} : e ∈ erases → LoadStep erases segs (.flashErase e.1 e.2)
  | flashWrite {p : Segment} : p ∈ pieces segs → LoadStep erases segs (.flashWrite p)
  | enterCmdXip : LoadStep erases segs .enterCmdXip
  | compare {p : Segment} : p ∈ pieces segs → LoadStep erases segs (.compare p)
  | reboot : LoadStep erases segs .reboot

theorem loadStep_of_mem {erases : List (UInt32 × UInt32)} {segs : List Segment} {verify : Bool}
    {step : Step} (h : step ∈ loadPlan erases segs verify) : LoadStep erases segs step := by
  simp only [loadPlan, List.mem_append, List.mem_cons, List.not_mem_nil, or_false,
    List.mem_map] at h
  rcases h with ((((rfl | rfl) | ⟨e, he, rfl⟩) | ⟨p, hp, rfl⟩) | hverify) | rfl
  · exact .exclusiveAccess
  · exact .exitXip
  · exact .flashErase he
  · exact .flashWrite hp
  · cases verify with
    | true =>
        simp only [if_true, List.mem_cons, List.mem_map] at hverify
        rcases hverify with rfl | ⟨p, hp, rfl⟩
        · exact .enterCmdXip
        · exact .compare hp
    | false => simp at hverify
  · exact .reboot

theorem loadPlan_fits (erases : List (UInt32 × UInt32)) (segs : List Segment) (verify : Bool) :
    ∀ step ∈ loadPlan erases segs verify, step.Fits := by
  intro step hstep
  cases loadStep_of_mem hstep with
  | compare hp => exact (length_le_of_mem_pieces hp).2.trans_lt (by decide)
  | _ => trivial

/-- A run of the plan that returned, or whose transfers all succeeded, is past
the last write. -/
theorem past_flashSteps {erases : List (UInt32 × UInt32)} {segs : List Segment} {verify : Bool}
    {d d' : Device} {tr : BusTrace} {o : Outcome LoadError Unit}
    (h : LoopRuns Step.perform (loadPlan erases segs verify) d tr o d')
    (hs : o = .ok () ∨ ∀ ev ∈ tr, Succeeded ev) :
    ∃ d₁ t₁ t₂, tr = t₁ ++ t₂ ∧
      LoopRuns Step.perform (flashSteps erases segs) d t₁ (.ok ()) d₁ ∧
      LoopRuns Step.perform (closeSteps segs verify) d₁ t₂ o d' := by
  have hfits := loadPlan_fits erases segs verify
  rw [loadPlan_eq] at h hfits
  have hphase : ∀ step ∈ flashSteps erases segs, ∀ n, step.cmd.dataPhase ≠ .deviceToHost n := by
    intro step hstep n
    simp only [flashSteps, List.mem_cons, List.mem_append, List.mem_map] at hstep
    rcases hstep with rfl | rfl | ⟨e, -, rfl⟩ | ⟨p, -, rfl⟩ <;> simp [Step.cmd, Command.dataPhase]
  rcases h.split_append with ⟨d₁, t₁, t₂, htr, h₁, h₂⟩ | ⟨ho, h₁⟩
  · exact ⟨d₁, t₁, t₂, htr, h₁, h₂⟩
  · -- none of the steps up to the last write reads, so they went through
    have hfits₁ := fun step hstep => hfits step (List.mem_append_left _ hstep)
    have hok := steps_ok_of_succeeded h₁ hfits₁ hphase
    exact absurd (hs.elim id hok) ho

theorem loadPlan_dropLast (erases : List (UInt32 × UInt32)) (segs : List Segment)
    (verify : Bool) : .reboot ∉ (loadPlan erases segs verify).dropLast := by
  rw [loadPlan, List.dropLast_concat]
  cases verify <;> simp

end PicotoolRs
