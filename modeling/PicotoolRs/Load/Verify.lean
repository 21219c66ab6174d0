import PicotoolRs.Load.Plan

/-!
# PicotoolRs.Load.Verify

What `--verify` establishes.

The device may answer anything. The read-backs of a trace are the reads that
are over, each with its address, its length and the bytes received. After a load
that returns they are the pieces of the image, one for one (`readBacks_of_ok`);
after a mismatch they are the pieces up to one whose bytes differ
(`readBacks_of_mismatch`).
-/

namespace PicotoolRs

open Lib Constants

/-! ### Read-backs -/

/-- A read that is over. -/
structure ReadBack where
  addr : UInt32
  len : UInt32
  bytes : List UInt8
  deriving Repr, DecidableEq

/-- The exchange, if it is a read. -/
def Exchange.readBack (x : Exchange) : Option ReadBack :=
  match x.cmd with
  | .read addr len => some ⟨addr, len, x.received⟩
  | _ => none

/-- The reads of a trace, in order. -/
def readBacks (tr : BusTrace) : List ReadBack :=
  (Link.start.after tr).finished.filterMap Exchange.readBack

/-- The bytes at their address. -/
def ReadBack.toRun (r : ReadBack) : Run UInt8 := ⟨r.addr.toNat, r.bytes⟩

/-- The read of a piece, returning given bytes. -/
def Segment.readAs (p : Segment) (bytes : List UInt8) : ReadBack :=
  ⟨p.addr, U32.ofUsize p.data.length, bytes⟩

/-- The piece the step compares, if it does. -/
def Step.compared : Step → Option Segment
  | .compare piece => some piece
  | _ => none

/-- The step is not a read without a comparison. -/
def Step.Checks : Step → Prop
  | .flashRead _ _ => False
  | _ => True

theorem Step.Made.readBack {step : Step} {x : Exchange} (h : step.Made x) (hc : step.Checks) :
    x.readBack = step.compared.map fun p => p.readAs p.data := by
  have hcmd := h.cmd
  cases step with
  | compare piece => simp [Exchange.readBack, hcmd, Step.cmd, h.agrees piece rfl, Step.compared,
      Segment.readAs]
  | flashRead addr len => exact absurd hc id
  | _ => simp [Exchange.readBack, hcmd, Step.cmd, Step.compared]

/-- The reads of steps that went through returned the pieces compared. -/
theorem readBacks_of_made {steps : List Step} {xs : List Exchange}
    (h : List.Forall₂ Step.Made steps xs) (hc : ∀ step ∈ steps, step.Checks) :
    xs.filterMap Exchange.readBack =
      (steps.filterMap Step.compared).map fun p => p.readAs p.data := by
  induction h with
  | nil => rfl
  | @cons step x steps xs hx _ ih =>
      rw [List.forall_mem_cons] at hc
      have hread := hx.readBack hc.1
      cases hstep : step.compared with
      | none => rw [List.filterMap_cons_none (by rw [hread, hstep]; rfl),
          List.filterMap_cons_none hstep, ih hc.2]
      | some p => rw [List.filterMap_cons_some (by rw [hread, hstep]; rfl),
          List.filterMap_cons_some hstep, ih hc.2, List.map_cons]

/-! ### The plan -/

theorem loadPlan_checks (erases : List (UInt32 × UInt32)) (segs : List Segment) (verify : Bool) :
    ∀ step ∈ loadPlan erases segs verify, step.Checks := by
  intro step hstep
  cases loadStep_of_mem hstep <;> trivial

/-- The pieces compared in a load that verifies are those of the image. -/
theorem compared_loadPlan (erases : List (UInt32 × UInt32)) (segs : List Segment) :
    (loadPlan erases segs true).filterMap Step.compared = pieces segs := by
  have herases : (erases.map fun e => Step.flashErase e.1 e.2).filterMap Step.compared = [] := by
    rw [List.filterMap_map]
    exact List.filterMap_eq_nil_iff.mpr fun _ _ => rfl
  have hwrites : ((pieces segs).map Step.flashWrite).filterMap Step.compared = [] := by
    rw [List.filterMap_map]
    exact List.filterMap_eq_nil_iff.mpr fun _ _ => rfl
  have hcompares : ((pieces segs).map Step.compare).filterMap Step.compared = pieces segs := by
    rw [List.filterMap_map]
    exact List.filterMap_some
  simp only [loadPlan, if_true, List.filterMap_append, List.filterMap_cons, List.filterMap_nil,
    herases, hwrites, hcompares]
  simp [Step.compared]

/-- The reboot at the end compares nothing. -/
theorem compared_of_dropLast_prefix {erases : List (UInt32 × UInt32)} {segs : List Segment}
    {done : List Step} (hinit : (loadPlan erases segs true).dropLast <+: done)
    (hpre : done <+: loadPlan erases segs true) : done.filterMap Step.compared = pieces segs := by
  have hplan := compared_loadPlan erases segs
  have hsplit : loadPlan erases segs true = (loadPlan erases segs true).dropLast ++ [.reboot] := by
    rw [loadPlan, List.dropLast_concat]
  have hdrop : (loadPlan erases segs true).dropLast.filterMap Step.compared = pieces segs := by
    rw [← hplan, hsplit, List.filterMap_append, List.dropLast_concat,
      List.filterMap_cons_none rfl, List.filterMap_nil, List.append_nil]
  refine ((hpre.filterMap Step.compared).eq_of_length_le ?_).trans hplan
  rw [hplan, ← hdrop]
  exact (hinit.filterMap Step.compared).length_le

/-! ### What a load that verifies has read -/

/-- A load whose plan cannot be computed neither returns nor gets to compare
anything. -/
theorem load_runs_of_none {segs : List Segment} {verify : Bool} {d d' : Device} {tr : BusTrace}
    {o : Outcome LoadError Unit} (hplan : planErase segs = none)
    (h : (load segs verify).Runs d tr o d') :
    o ≠ .ok () ∧ ∀ addr, o ≠ .err (.verifyMismatch addr) := by
  simp only [load, hplan, Session.ofOption_none_bind] at h
  have hdevice : ∀ {m : Host Unit} {d₁ d₂ : Device} {t : BusTrace} {e : LoadError},
      (Loader.run m).Runs d₁ t (.err e) d₂ → ∃ e', e = .device e' := by
    intro m d₁ d₂ t e hm
    obtain ⟨o', ho', -⟩ := Session.runs_mapErr.mp hm
    cases o' with
    | err e' => exact ⟨e', Outcome.err.inj ho'⟩
    | ok u => simp at ho'
    | panic => simp at ho'
  rcases Session.runs_bind.mp h with ⟨⟨⟩, d₁, t₁, t₂, rfl, -, h₂⟩ | ⟨e, rfl, h₁⟩ | ⟨rfl, -⟩
  · rcases Session.runs_bind.mp h₂ with ⟨⟨⟩, d₂, t₃, t₄, rfl, -, h₃⟩ | ⟨e, rfl, h₃⟩ | ⟨rfl, -⟩
    · obtain ⟨-, rfl, -⟩ := Session.runs_ofOutcome.mp h₃
      simp
    · obtain ⟨e', rfl⟩ := hdevice h₃
      simp
    · simp
  · obtain ⟨e', rfl⟩ := hdevice h₁
    simp
  · simp

section Runs

variable {segs : List Segment} {erases : List (UInt32 × UInt32)} {d d' : Device} {tr : BusTrace}

/-- A load that returns has read back every piece. -/
theorem readBacks_of_ok
    (h : LoopRuns Step.perform (loadPlan erases segs true) d tr (.ok ()) d') :
    readBacks tr = (pieces segs).map fun p => p.readAs p.data := by
  obtain ⟨xs, hledger, hl⟩ :=
    steps_ledger h (loadPlan_fits _ _ _) (loadPlan_dropLast _ _ _) []
  cases hledger with
  | @made done _ hpre hxs hok _ =>
      -- all steps are done, except perhaps the reboot
      rw [readBacks, Link.start, hl, List.nil_append, ← compared_of_dropLast_prefix (hok rfl) hpre]
      exact readBacks_of_made hxs fun s hs => loadPlan_checks _ _ _ s (hpre.subset hs)
  | differs _ _ _ _ ho => simp at ho

/-- A load that finds a mismatch has read back the pieces before, which agreed,
and the one that differs, and has not sent a reboot. -/
theorem readBacks_of_mismatch {addr : UInt32}
    (h : LoopRuns Step.perform (loadPlan erases segs true) d tr (.err (.verifyMismatch addr)) d') :
    ∃ before piece after bytes, pieces segs = before ++ piece :: after ∧ piece.addr = addr ∧
      readBacks tr = before.map (fun p => p.readAs p.data) ++ [piece.readAs bytes] ∧
      bytes ≠ piece.data ∧
      ∀ ev ∈ tr, ∀ pc sp delayMs, ¬ ev.1.IsPacketOf (.reboot pc sp delayMs) := by
  have hfits := loadPlan_fits erases segs true
  have hlast := loadPlan_dropLast erases segs true
  have hchecks := loadPlan_checks erases segs true
  have hcompared := compared_loadPlan erases segs
  obtain ⟨done, step, rest, d₁, t₁, t₂, hsplit, rfl, hdone, hstep⟩ := h.split_stop (by simp)
  rw [hsplit] at hfits hlast hchecks hcompared
  obtain ⟨rfl, hrun⟩ := perform_runs (hfits step (by simp)) hstep
  cases hrun with
  | @mismatch piece _ ha hne =>
      rw [List.dropLast_append_of_ne_nil (by simp), List.mem_append, not_or] at hlast
      obtain ⟨xs, hxs, hl₁⟩ := steps_link hdone (fun s hs => hfits s (by simp [hs])) hlast.1 []
      have hl₂ := (Link.after_script ha ([] ++ xs)).1 rfl
      refine ⟨done.filterMap Step.compared, piece, rest.filterMap Step.compared, received t₂,
        ?_, rfl, ?_, hne, ?_⟩
      · rw [← hcompared, List.filterMap_append]
        rfl
      · rw [readBacks, Link.start, Link.after_append, hl₁, hl₂, List.filterMap_append,
          List.nil_append, readBacks_of_made hxs fun s hs => hchecks s (by simp [hs])]
        rfl
      · intro ev hev pc sp delayMs hreboot
        have hall : LoopRuns Step.perform (done ++ [.compare piece]) d (t₁ ++ t₂)
            (.err (.verifyMismatch piece.addr)) d₁.bump := hdone.append (.stop hstep (by simp))
        obtain ⟨s, hs, hcmd⟩ := step_of_packet hall (fun s hs => hfits s (by simp_all; tauto)) hev
          ⟨_, hreboot⟩
        have heq : s.cmd = .reboot pc sp delayMs := by
          simpa using hcmd.symm.trans hreboot
        obtain rfl : s = .reboot := by
          cases s <;> simp [Step.cmd] at heq ⊢
        rcases List.mem_append.mp hs with hs | hs
        · exact hlast.1 hs
        · simp at hs

end Runs

/-! ### Soundness -/

/-- The reads tile the segment and return its data. -/
structure Tiles (s : Segment) (reads : List ReadBack) : Prop where
  /-- Each returned as many bytes as it asked for. -/
  lengths : ∀ r ∈ reads, r.bytes.length = r.len.toNat
  /-- The first starts at the segment's address, each other one where the one
  before ends. -/
  ranges : reads.map ReadBack.toRun = layOut s.addr.toNat (reads.map ReadBack.bytes)
  /-- Together they are the segment's data. -/
  data : (reads.map ReadBack.bytes).flatten = s.data

/-- The reads, in order, tile the segments one after the other. -/
def ReadsBack (segs : List Segment) (reads : List ReadBack) : Prop :=
  ∃ parts, reads = parts.flatten ∧ List.Forall₂ Tiles segs parts

/-- The last read is the first to differ: its piece starts at `addr`, the reads
before returned the pieces below, and the remaining pieces lie above. -/
def FirstMismatch (segs : List Segment) (addr : UInt32) (reads : List ReadBack) : Prop :=
  ∃ before piece after bytes, pieces segs = before ++ piece :: after ∧
    piece.addr = addr ∧ bytes ≠ piece.data ∧
    reads = before.map (fun p => p.readAs p.data) ++ [piece.readAs bytes] ∧
    (∀ p ∈ before, p.toRun.stop ≤ addr.toNat) ∧ ∀ p ∈ after, piece.toRun.stop ≤ p.addr.toNat

theorem tiles_pieces {s : Segment} (hs : s.toRun.stop < 2 ^ 32) :
    Tiles s (s.pieces.map fun p => p.readAs p.data) := by
  have hbytes : (s.pieces.map fun p => p.readAs p.data).map ReadBack.bytes =
      chunks writeChunk s.data := by
    have hdata := congrArg (List.map Run.data) (Segment.map_toRun_pieces hs)
    rw [List.map_map, map_data_layOut] at hdata
    rw [List.map_map]
    exact hdata
  constructor
  case lengths =>
    intro r hr
    obtain ⟨p, hp, rfl⟩ := List.mem_map.mp hr
    have hlen := length_le_of_mem_chunks writeChunk_pos (Segment.data_of_mem_pieces hp)
    exact (U32.toNat_ofUsize (hlen.trans_lt (by decide))).symm
  case ranges =>
    rw [hbytes, ← Segment.map_toRun_pieces hs, List.map_map]
    rfl
  case data => rw [hbytes, flatten_chunks writeChunk_pos]

/-- The reads of all pieces tile the segments. -/
theorem readsBack_pieces {segs : List Segment} (hfits : FitsAddressSpace segs) :
    ReadsBack segs ((pieces segs).map fun p => p.readAs p.data) := by
  refine ⟨segs.map fun s => s.pieces.map fun p => p.readAs p.data, ?_, ?_⟩
  · rw [pieces, List.map_flatMap, List.flatMap_def]
  · rw [List.forall₂_map_right_iff, List.forall₂_same]
    exact fun s hs => tiles_pieces (hfits s hs)

/-- A load that verifies returns only if the reads tile the segments and return
their data. It reports a mismatch only at the first piece whose read differs,
without a reboot. A read that returns over a conforming device returns the first
`len` bytes of its data transfer, and no fewer. -/
theorem verify_sound {bytes : List UInt8} {bound : UInt32} {segs : List Segment} {d d' : Device}
    {tr : BusTrace} {o : Outcome LoadError Unit} (hparse : parse bytes bound = .ok segs)
    (h : (load segs true).Runs d tr o d') :
    (o = .ok () → ReadsBack segs (readBacks tr)) ∧
    (∀ addr, o = .err (.verifyMismatch addr) → FirstMismatch segs addr (readBacks tr) ∧
      ∀ ev ∈ tr, ∀ pc sp delayMs, ¬ ev.1.IsPacketOf (.reboot pc sp delayMs)) ∧
    (∀ addr len d t data d', (Device.flashRead addr len).Runs d t (.ok data) d' →
      (∀ ev ∈ t, Conforming ev) → data.length = len ∧
        ∃ c, (Request.inData d.bump len .readData commandTimeout, c) ∈ t ∧
          data = c.buffer.take len) := by
  have hrep := parse_represents hparse
  refine ⟨?_, ?_, ?_⟩
  · intro heq
    subst heq
    cases hplan : planErase segs with
    | none => exact absurd rfl (load_runs_of_none hplan h).1
    | some erases =>
        rw [load_eq true hrep.fitsAddressSpace hplan, Session.runs_forM] at h
        rw [readBacks_of_ok h]
        exact readsBack_pieces hrep.fitsAddressSpace
  · intro addr heq
    subst heq
    cases hplan : planErase segs with
    | none => exact absurd rfl ((load_runs_of_none hplan h).2 addr)
    | some erases =>
        rw [load_eq true hrep.fitsAddressSpace hplan, Session.runs_forM] at h
        obtain ⟨before, piece, after, bytes, hsplit, rfl, hreads, hne, hreboot⟩ :=
          readBacks_of_mismatch h
        have hasc := List.pairwise_map.mp (pieces_ascending hrep.fitsAddressSpace hrep.gap)
        rw [hsplit, List.pairwise_append] at hasc
        obtain ⟨-, hafter, hbefore⟩ := hasc
        exact ⟨⟨before, piece, after, bytes, hsplit, rfl, hne, hreads,
          fun p hp => hbefore p hp piece (List.mem_cons_self ..),
          (List.pairwise_cons.mp hafter).1⟩, hreboot⟩
  · intro addr len d t data d' hread hconf
    obtain ⟨c₁, c₂, c₃, rfl, hs, rfl⟩ := Device.flashRead_runs_ok hread
    have hlen := length_of_succeeded_inData hs (hconf _ (by simp))
    exact ⟨by rw [List.length_take, Nat.min_eq_left hlen], c₂, by simp, rfl⟩

/-- Read back as zeros, a payload of zeros agrees and one with another byte does
not. -/
theorem verify_sound_zeros :
    let run (segs : List Segment) := (load segs true ⟨0, 64, 0⟩).exec Request.completed
    ReadsBack [⟨flashStart, [0, 0]⟩] (readBacks (run [⟨flashStart, [0, 0]⟩]).1) ∧
      FirstMismatch [⟨flashStart, [0, 7]⟩] flashStart
        (readBacks (run [⟨flashStart, [0, 7]⟩]).1) := by
  intro run
  have hzeros : parse (fileBytes [.build uf2FlagFamilyIdPresent flashStart rp2040FamilyId [0, 0]
      (by decide)]) flashEnd = .ok [⟨flashStart, [0, 0]⟩] := by decide +kernel
  have hother : parse (fileBytes [.build uf2FlagFamilyIdPresent flashStart rp2040FamilyId [0, 7]
      (by decide)]) flashEnd = .ok [⟨flashStart, [0, 7]⟩] := by decide +kernel
  exact ⟨(verify_sound hzeros (Session.exec_runs _ _ _)).1 (by decide +kernel),
    ((verify_sound hother (Session.exec_runs _ _ _)).2.1 _ (by decide +kernel)).1⟩

end PicotoolRs
