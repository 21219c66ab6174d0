import PicotoolRs.Run.Flash

/-!
# PicotoolRs.Run.Guard

The flash-address guard, on the wire.

The parser checks single blocks against the detected bound. What is erased,
written and read are ranges made from many blocks, rounded to sectors and cut
into chunks. `loadPlan_guarded` shows that every command of a load stays inside
the flash window all the same, and `exactArithmetic` that no number on the way
is anything but the intended one.
-/

namespace PicotoolRs

open Lib Constants

/-! ### Commands inside the window -/

/-- The command erases whole sectors, and erases, writes and reads only inside
`[flashStart, bound)`. -/
def Command.Guarded (bound : UInt32) : Command → Prop
  | .flashErase addr size =>
      4096 ∣ addr.toNat ∧ 4096 ∣ size.toNat ∧ flashStart ≤ addr ∧
        addr.toNat + size.toNat ≤ bound.toNat
  | .write addr len => flashStart ≤ addr ∧ addr.toNat + len.toNat ≤ bound.toNat
  | .read addr len => flashStart ≤ addr ∧ addr.toNat + len.toNat ≤ bound.toNat
  | _ => True

/-- Every packet of the trace is that of a command inside the window. -/
def Guarded (bound : UInt32) (tr : BusTrace) : Prop :=
  ∀ ev ∈ tr, ev.1.IsPacket → ∃ cmd : Command, ev.1.IsPacketOf cmd ∧ cmd.Guarded bound

/-- The `u32` computations of a load give the intended numbers. -/
structure ExactArithmetic (segs : List Segment) : Prop where
  /-- The end of a segment, with its length as a `u32`, and the end rounded up. -/
  ends : ∀ s ∈ segs, (U32.ofUsize s.data.length).toNat = s.data.length ∧
    ∃ e, s.endAddr = some e ∧ e.toNat = s.addr.toNat + s.data.length ∧
      (alignUp e flashSectorSize).toNat = (e.toNat + 4095) / 4096 * 4096
  /-- The sizes of the erase ranges. -/
  sizes : ∃ erases, planErase segs = some erases
  /-- The offset and the address of a chunk, and its length as a `u32`. -/
  chunks : ∀ s ∈ segs, ∀ c ∈ (chunks writeChunk s.data).zipIdx,
    (U32.ofUsize (c.2 * writeChunk)).toNat = c.2 * writeChunk ∧
    (U32.ofUsize c.1.length).toNat = c.1.length ∧
    ∃ a, U32.add s.addr (U32.ofUsize (c.2 * writeChunk)) = some a ∧
      a.toNat = s.addr.toNat + c.2 * writeChunk

section Segments

variable {bound : UInt32} {segs : List Segment} {rs : List (Run UInt8)}
  (h : Represents bound segs rs) (hb : SectorBound bound)

include h

/-- Every piece lies in the window. -/
theorem pieces_window {p : Segment} (hp : p ∈ pieces segs) :
    flashStart ≤ p.addr ∧ p.addr.toNat + (U32.ofUsize p.data.length).toNat ≤ bound.toNat := by
  obtain ⟨s, hs, hps⟩ := List.mem_flatMap.mp hp
  have hlen := (length_le_of_mem_pieces hp).2
  have hmem := List.mem_map_of_mem (f := Segment.toRun) hps
  rw [Segment.map_toRun_pieces (h.stop_lt hs)] at hmem
  have hstart := start_le_of_mem_layOut hmem
  have hstop := stop_le_of_mem_layOut hmem
  rw [flatten_chunks writeChunk_pos] at hstop
  obtain ⟨hlo, hhi⟩ := h.segment_window hs
  rw [U32.toNat_ofUsize (hlen.trans_lt (by decide))]
  exact ⟨UInt32.le_iff_toNat_le.mpr (hlo.trans hstart), hstop.trans hhi⟩

include hb

theorem exactArithmetic : ExactArithmetic segs := by
  have hfits := h.fitsSectors hb.below
  constructor
  case ends =>
    intro s hs
    obtain ⟨e, he, hstop, -⟩ := h.endAddr hs
    have hlt := h.stop_lt hs
    rw [Run.stop, s.toRun_start, s.toRun_data] at hlt
    refine ⟨U32.toNat_ofUsize (by omega), e, he, hstop, toNat_alignUp ?_⟩
    rw [hstop]
    exact hfits s hs
  case sizes => exact ⟨_, planErase_eq hfits⟩
  case chunks =>
    intro s hs c hc
    obtain ⟨hofs, hadd⟩ := add_chunkOffset (h.stop_lt hs) hc
    have hlen := length_le_of_mem_chunks writeChunk_pos (List.fst_mem_of_mem_zipIdx hc)
    refine ⟨hofs, U32.toNat_ofUsize (hlen.trans_lt (by decide)), _, hadd, ?_⟩
    rw [U32.add_eq_some_iff.mp hadd, hofs]

/-- The planned erases are whole sectors inside the window. -/
theorem planErase_guarded {erases : List (UInt32 × UInt32)} (hplan : planErase segs = some erases)
    {e : UInt32 × UInt32} (he : e ∈ erases) : (Command.flashErase e.1 e.2).Guarded bound := by
  obtain ⟨s, hs, t, ht, hstart, hstop⟩ := mem_planErase (h.fitsSectors hb.below) hplan he
  have hlo := (h.segment_window hs).1
  have hhi := (h.segment_window ht).2
  obtain ⟨k, hk⟩ := hb.aligned
  rw [toNat_flashStart] at hlo
  simp only [sectorStart, sectorStop, s.toRun_start] at hstart hstop
  refine ⟨by omega, by omega, ?_, ?_⟩
  · rw [UInt32.le_iff_toNat_le, toNat_flashStart]
    omega
  · omega

/-- Every command of a load stays in the window. -/
theorem loadPlan_guarded {erases : List (UInt32 × UInt32)} {verify : Bool}
    (hplan : planErase segs = some erases) {step : Step}
    (hstep : step ∈ loadPlan erases segs verify) : step.cmd.Guarded bound := by
  cases loadStep_of_mem hstep with
  | flashErase he => exact planErase_guarded h hb hplan he
  | flashWrite hp => exact pieces_window h hp
  | compare hp => exact pieces_window h hp
  | _ => trivial

/-- A load of the segments neither panics nor leaves the window. -/
theorem load_guarded {verify : Bool} {d d' : Device} {tr : BusTrace} {o : Outcome LoadError Unit}
    (hmax : 0 < d.inMaxPacket) (hrun : (load segs verify).Runs d tr o d') :
    o ≠ .panic ∧ Guarded bound tr := by
  obtain ⟨erases, hplan, hloop⟩ := load_runs h hb hrun
  refine ⟨(steps_ne_panic hloop (loadPlan_fits _ _ _) hmax).1, ?_⟩
  intro ev hev hpacket
  obtain ⟨step, hstep, hcmd⟩ := step_of_packet hloop (loadPlan_fits _ _ _) hev hpacket
  exact ⟨step.cmd, hcmd, loadPlan_guarded h hb hplan hstep⟩

end Segments

/-! ### The whole run -/

/-- Over a conforming device, the detection returns a bound that is whole
sectors and no higher than the conservative one, the parser does not panic, and
a load of what it returns computes every number exactly, does not panic, and
stays in the flash window. -/
theorem guard_on_the_wire {d d₁ : Device} {t : BusTrace} {o : Outcome RunError UInt32}
    (hmax : 0 < d.inMaxPacket) (hconf : ∀ ev ∈ t, Conforming ev)
    (h : resolveFlashEnd.Runs d t o d₁) :
    ∃ bound, o = .ok bound ∧ SectorBound bound ∧
      (∀ bytes, parse bytes bound ≠ .panic) ∧
      ∀ bytes segs, parse bytes bound = .ok segs → ExactArithmetic segs ∧
        ∀ verify tr o' d', (load segs verify).Runs d₁ tr o' d' →
          o' ≠ .panic ∧ Guarded bound tr := by
  obtain ⟨r, hdetect, hcase⟩ := resolveFlashEnd_runs h
  obtain ⟨hpanic, hd⟩ := detectFlashSize_ne_panic hmax hconf hdetect
  rcases hcase with ⟨hr, -⟩ | ⟨bound, hb, -, ho, -⟩
  · exact absurd hr hpanic
  · refine ⟨bound, ho, hb, fun bytes => parse_ne_panic bytes bound, fun bytes segs hparse => ?_⟩
    have hrep := parse_represents hparse
    exact ⟨exactArithmetic hrep hb, fun verify tr o' d' hrun =>
      load_guarded hrep hb (hd ▸ hmax) hrun⟩

/-- A device with 2 MiB of flash that completes every transfer. -/
def twoMebibytes (r : Request) : Completion :=
  match r.op with
  | .readData => ⟨.ok (), 64, 0xEF :: 0x40 :: 0x15 :: List.replicate 61 0⟩
  | _ => r.completed

theorem guard_on_the_wire_twoMebibytes :
    let detect : Session Request Completion Device RunError UInt32 := resolveFlashEnd
    let run := (detect ⟨0, 64, 0⟩).exec twoMebibytes
    ∃ bound, run.2.1 = .ok bound ∧ SectorBound bound ∧
      (∀ bytes, parse bytes bound ≠ .panic) ∧
      ∀ bytes segs, parse bytes bound = .ok segs → ExactArithmetic segs ∧
        ∀ verify tr o' d', (load segs verify).Runs run.2.2 tr o' d' →
          o' ≠ .panic ∧ Guarded bound tr :=
  guard_on_the_wire (d := ⟨0, 64, 0⟩) (by decide) (by decide +kernel)
    (Session.exec_runs twoMebibytes _ _)

end PicotoolRs
