import PicotoolRs.Uf2.Format

/-!
# PicotoolRs.Uf2.Scan

What `parse` computes, over block lists.

`Block.fault` says which rule a block breaks, given the payloads accepted
before it, and `scan` walks over a list of blocks up to the first fault. `scan`
looks at *all* earlier payloads where the parser looks at its last segment
only, and at exact sums where the parser adds machine words.

`Represents` ties the parser's segment list to the payloads accepted so far.
One iteration of the loop keeps it or stops with the block's fault
(`parseBlock_step`), so the whole loop agrees with `scan`
(`foldlM_parseBlock`), and `parse` never panics.
-/

namespace PicotoolRs

open Lib Constants

/-! ### The rules of a block -/

/-- What the checks on a single block come to. -/
inductive Verdict
  /-- The block is for something else. -/
  | skip
  /-- The block's payload is to be taken. -/
  | accept
  /-- The block breaks a rule. -/
  | reject (e : Uf2Error)
  deriving Repr, DecidableEq

namespace Block

/-- The three magic words are right. -/
def HasMagic (b : Block) : Prop :=
  b.magicStart0 = uf2MagicStart0 ∧ b.magicStart1 = uf2MagicStart1 ∧ b.magicEnd = uf2MagicEnd

instance (b : Block) : Decidable b.HasMagic := inferInstanceAs (Decidable (_ ∧ _ ∧ _))

/-- The declared target range lies in the flash window `[flashStart, flashEnd)`,
by exact arithmetic. -/
def InWindow (flashEnd : UInt32) (b : Block) : Prop :=
  flashStart.toNat ≤ b.targetAddr.toNat ∧
    b.targetAddr.toNat + b.payloadSize.toNat ≤ flashEnd.toNat

instance (flashEnd : UInt32) (b : Block) : Decidable (b.InWindow flashEnd) :=
  inferInstanceAs (Decidable (_ ∧ _))

/-- The checks on block number `i`, in order. -/
def verdict (flashEnd : UInt32) (i : Nat) (b : Block) : Verdict :=
  if ¬ b.HasMagic then .reject (.badMagic i)
  else if b.flags &&& uf2FlagNotMainFlash ≠ 0 then .skip
  else if b.flags &&& uf2FlagFamilyIdPresent = 0 then .reject (.missingFamilyId i)
  else if b.familyId ≠ rp2040FamilyId then .skip
  else if b.payloadSize.toNat > uf2MaxPayload then .reject (.payloadTooLarge i b.payloadSize)
  else if ¬ b.InWindow flashEnd then
    .reject (.addressOutOfRange i b.targetAddr b.payloadSize flashEnd)
  else .accept

/-- The rule block number `i` breaks, if any, given the payloads accepted
before it. -/
def fault (flashEnd : UInt32) (i : Nat) (earlier : List (Run UInt8)) (b : Block) :
    Option Uf2Error :=
  match b.verdict flashEnd i with
  | .skip => none
  | .reject e => some e
  | .accept =>
      if ∃ r ∈ earlier, b.targetAddr.toNat < r.stop then some (.overlap b.targetAddr) else none

/-- The block passes the checks on single blocks. -/
structure Passes (flashEnd : UInt32) (b : Block) : Prop where
  /-- The magic words are right. -/
  magic : b.HasMagic
  /-- A main-flash block carries a family id. -/
  family : b.flags &&& uf2FlagNotMainFlash = 0 → b.flags &&& uf2FlagFamilyIdPresent ≠ 0
  /-- A block for this target declares no more than a block can carry. -/
  size : b.isFlash → b.payloadSize.toNat ≤ uf2MaxPayload
  /-- A block for this target stays in the flash window. -/
  window : b.isFlash → b.InWindow flashEnd

instance (flashEnd : UInt32) (b : Block) : Decidable (b.Passes flashEnd) :=
  decidable_of_iff
    (b.HasMagic ∧
      (b.flags &&& uf2FlagNotMainFlash = 0 → b.flags &&& uf2FlagFamilyIdPresent ≠ 0) ∧
      (b.isFlash → b.payloadSize.toNat ≤ uf2MaxPayload) ∧ (b.isFlash → b.InWindow flashEnd))
    ⟨fun ⟨hm, hf, hs, hw⟩ => ⟨hm, hf, hs, hw⟩, fun h => ⟨h.magic, h.family, h.size, h.window⟩⟩

theorem isFlash_iff {b : Block} :
    b.isFlash ↔ b.flags &&& uf2FlagNotMainFlash = 0 ∧ b.flags &&& uf2FlagFamilyIdPresent ≠ 0 ∧
      b.familyId = rp2040FamilyId := by
  simp [isFlash, and_assoc]

/-- A block that passes is taken or skipped, according to its target. -/
theorem Passes.verdict_eq {flashEnd : UInt32} {b : Block} (h : b.Passes flashEnd) (i : Nat) :
    b.verdict flashEnd i = if b.isFlash then .accept else .skip := by
  unfold verdict
  rw [if_neg (not_not.mpr h.magic)]
  by_cases hmain : b.flags &&& uf2FlagNotMainFlash = 0
  · rw [if_neg (not_not.mpr hmain), if_neg (h.family hmain)]
    by_cases hfam : b.familyId = rp2040FamilyId
    · have hflash : b.isFlash := isFlash_iff.mpr ⟨hmain, h.family hmain, hfam⟩
      rw [if_neg (not_not.mpr hfam), if_neg (Nat.not_lt.mpr (h.size hflash)),
        if_neg (not_not.mpr (h.window hflash)), if_pos hflash]
    · rw [if_pos hfam, if_neg fun hflash => hfam (isFlash_iff.mp hflash).2.2]
  · rw [if_pos hmain, if_neg fun hflash => hmain (isFlash_iff.mp hflash).1]

/-- A block that is not rejected passes. -/
theorem passes_of_verdict {flashEnd : UInt32} {i : Nat} {b : Block}
    (h : ∀ e, b.verdict flashEnd i ≠ .reject e) : b.Passes flashEnd := by
  unfold verdict at h
  split at h
  · exact absurd rfl (h _)
  · next hmagic =>
    have hmagic := not_not.mp hmagic
    split at h
    · next hmain =>
      have hno : ¬ b.isFlash := fun hf => hmain (isFlash_iff.mp hf).1
      exact ⟨hmagic, fun h0 => absurd h0 hmain, fun hf => absurd hf hno, fun hf => absurd hf hno⟩
    · next hmain =>
      split at h
      · exact absurd rfl (h _)
      · next hfam =>
        split at h
        · next hother =>
          have hno : ¬ b.isFlash := fun hf => hother (isFlash_iff.mp hf).2.2
          exact ⟨hmagic, fun _ => hfam, fun hf => absurd hf hno, fun hf => absurd hf hno⟩
        · split at h
          · exact absurd rfl (h _)
          · next hsize =>
            split at h
            · exact absurd rfl (h _)
            · next hwin =>
              exact ⟨hmagic, fun _ => hfam, fun _ => Nat.not_lt.mp hsize,
                fun _ => not_not.mp hwin⟩

end Block

/-! ### Segments as runs -/

/-- A segment as data placed at a natural-number address. -/
def Segment.toRun (s : Segment) : Run UInt8 := ⟨s.addr.toNat, s.data⟩

@[simp] theorem Segment.toRun_start (s : Segment) : s.toRun.start = s.addr.toNat := rfl

@[simp] theorem Segment.toRun_data (s : Segment) : s.toRun.data = s.data := rfl

theorem Segment.toRun_injective {s t : Segment} (h : s.toRun = t.toRun) : s = t := by
  have haddr : s.addr = t.addr := UInt32.toNat_inj.mp (congrArg Run.start h)
  have hdata : s.data = t.data := congrArg Run.data h
  cases s
  cases t
  rw [Segment.mk.injEq]
  exact ⟨haddr, hdata⟩

/-- `Segment::end` is exact as long as the exact end fits a word. -/
theorem Segment.endAddr_eq_some {s : Segment} (h : s.toRun.stop < 2 ^ 32) :
    ∃ e, s.endAddr = some e ∧ e.toNat = s.toRun.stop := by
  have hlen : (U32.ofUsize s.data.length).toNat = s.data.length :=
    U32.toNat_ofUsize (lt_of_le_of_lt (Nat.le_add_left _ _) h)
  cases he : s.endAddr with
  | none =>
      have := U32.add_eq_none_iff.mp he
      rw [hlen] at this
      exact absurd h (Nat.not_lt.mpr this)
  | some e =>
      refine ⟨e, rfl, ?_⟩
      rw [U32.add_eq_some_iff.mp he, hlen]
      rfl

/-- `append_block` is `pushRun` on segments, as long as no end overflows. -/
theorem appendBlock_refines {segs : List Segment} (addr : UInt32) (payload : List UInt8)
    (h : ∀ s ∈ segs, s.toRun.stop < 2 ^ 32) :
    (pushRun (segs.map Segment.toRun) ⟨addr.toNat, payload⟩ = none ∧
      appendBlock segs addr payload = .err (.overlap addr)) ∨
    ∃ segs', appendBlock segs addr payload = .ok segs' ∧
      pushRun (segs.map Segment.toRun) ⟨addr.toNat, payload⟩ =
        some (segs'.map Segment.toRun) := by
  rcases List.eq_nil_or_concat' segs with rfl | ⟨init, last, rfl⟩
  · exact .inr ⟨[⟨addr, payload⟩], rfl, rfl⟩
  · obtain ⟨e, he, hstop⟩ := last.endAddr_eq_some (h last (by simp))
    have hpush := pushRun_concat (init.map Segment.toRun) last.toRun ⟨addr.toNat, payload⟩
    rw [← hstop] at hpush
    simp only [List.map_append, List.map_cons, List.map_nil, hpush, UInt32.toNat_inj]
    by_cases heq : addr = e
    · subst heq
      exact .inr ⟨init ++ [{ last with data := last.data ++ payload }],
        by simp [appendBlock, he], by simp [Segment.toRun, Run.extend]⟩
    · by_cases hlt : addr < e
      · exact .inl ⟨by simp [heq, UInt32.lt_iff_toNat_lt.mp hlt],
          by simp [appendBlock, he, heq, hlt]⟩
      · have hlt' : ¬ addr.toNat < e.toNat := fun h' => hlt (UInt32.lt_iff_toNat_lt.mpr h')
        exact .inr ⟨init ++ [last, ⟨addr, payload⟩], by simp [appendBlock, he, heq, hlt],
          by simp [heq, hlt', Segment.toRun]⟩

/-! ### One iteration -/

/-- The segment list stands for the payloads `rs` accepted so far. -/
structure Represents (flashEnd : UInt32) (segs : List Segment) (rs : List (Run UInt8)) :
    Prop where
  /-- The segments are the coalesced payloads. -/
  coalesced : coalesce rs = some (segs.map Segment.toRun)
  /-- Every payload lies in the flash window. -/
  window : ∀ r ∈ rs, flashStart.toNat ≤ r.start ∧ r.stop ≤ flashEnd.toNat

theorem Represents.nil (flashEnd : UInt32) : Represents flashEnd [] [] :=
  ⟨rfl, by simp⟩

/-- The segments lie in the flash window as well. -/
theorem Represents.segment_window {flashEnd : UInt32} {segs : List Segment}
    {rs : List (Run UInt8)} (h : Represents flashEnd segs rs) {s : Segment} (hs : s ∈ segs) :
    flashStart.toNat ≤ s.addr.toNat ∧ s.toRun.stop ≤ flashEnd.toNat := by
  have hco := coalesce_coalesced h.coalesced
  have hmem : s.toRun ∈ segs.map Segment.toRun := List.mem_map_of_mem hs
  obtain ⟨r, hr, hstart⟩ := hco.start_mem _ hmem
  obtain ⟨q, hq, hstop⟩ := hco.stop_mem _ hmem
  rw [Segment.toRun_start] at hstart
  exact ⟨hstart ▸ (h.window r hr).1, hstop ▸ (h.window q hq).2⟩

/-- No segment's end overflows. -/
theorem Represents.stop_lt {flashEnd : UInt32} {segs : List Segment} {rs : List (Run UInt8)}
    (h : Represents flashEnd segs rs) {s : Segment} (hs : s ∈ segs) : s.toRun.stop < 2 ^ 32 :=
  (h.segment_window hs).2.trans_lt flashEnd.toNat_lt

/-- The bound check in `u64` is the exact one. -/
theorem stop_gt_iff {addr size flashEnd : UInt32} :
    addr.toUInt64 + size.toUInt64 > flashEnd.toUInt64 ↔
      flashEnd.toNat < addr.toNat + size.toNat := by
  have ha := addr.toNat_lt
  have hs := size.toNat_lt
  rw [gt_iff_lt, UInt64.lt_iff_toNat_lt, UInt64.toNat_add, UInt32.toNat_toUInt64,
    UInt32.toNat_toUInt64, UInt32.toNat_toUInt64, Nat.mod_eq_of_lt (by omega)]

/-- The checks of `parse` on a block are those of `Block.verdict`. -/
theorem blockPayload_toBytes (flashEnd : UInt32) (i : Nat) (b : Block) :
    blockPayload flashEnd i b.toBytes =
      match b.verdict flashEnd i with
      | .skip => .ok none
      | .accept => .ok (some (b.targetAddr, b.payload))
      | .reject e => .err e := by
  have hmagic : (b.magicStart0 ≠ uf2MagicStart0 ∨ b.magicStart1 ≠ uf2MagicStart1 ∨
      b.magicEnd ≠ uf2MagicEnd) ↔ ¬ b.HasMagic := by
    simp only [Block.HasMagic]
    tauto
  have hwin : (b.targetAddr < flashStart ∨
      b.targetAddr.toUInt64 + b.payloadSize.toUInt64 > flashEnd.toUInt64) ↔
      ¬ b.InWindow flashEnd := by
    rw [stop_gt_iff, UInt32.lt_iff_toNat_lt]
    simp only [Block.InWindow]
    omega
  have h508 : uf2BlockSize - 4 = 508 := rfl
  simp only [blockPayload, h508, Block.rdU32_magicStart0, Block.rdU32_magicStart1,
    Block.rdU32_magicEnd, Block.rdU32_flags, Block.rdU32_familyId, Block.rdU32_targetAddr,
    Block.rdU32_payloadSize, Outcome.monadLift_some, Outcome.ok_bind, hmagic, hwin, Block.verdict]
  split_ifs <;> try rfl
  next hsize _ =>
    rw [b.slice_payload (Nat.not_lt.mp hsize)]
    rfl

/-- One iteration of the loop stops with the block's fault, or takes what the
block contributes. -/
theorem parseBlock_step {flashEnd : UInt32} {segs : List Segment} {rs : List (Run UInt8)}
    (h : Represents flashEnd segs rs) (i : Nat) (b : Block) :
    (∃ e, b.fault flashEnd i rs = some e ∧
      parseBlock flashEnd segs (b.toBytes, i) = .err e) ∨
    (b.fault flashEnd i rs = none ∧ ∃ segs', parseBlock flashEnd segs (b.toBytes, i) = .ok segs' ∧
      Represents flashEnd segs' (rs ++ accepted [b])) := by
  simp only [parseBlock, blockPayload_toBytes, Block.fault]
  cases hv : b.verdict flashEnd i with
  | reject e => exact .inl ⟨e, rfl, rfl⟩
  | skip =>
      have hpass : b.Passes flashEnd := Block.passes_of_verdict (i := i) (by simp [hv])
      have hno : ¬ b.isFlash := fun hf => by simp [hpass.verdict_eq, hf] at hv
      exact .inr ⟨rfl, segs, rfl, by simpa [accepted, hno] using h⟩
  | accept =>
      have hpass : b.Passes flashEnd := Block.passes_of_verdict (i := i) (by simp [hv])
      have hflash : b.isFlash := by
        by_contra hf
        simp [hpass.verdict_eq, hf] at hv
      have hacc : accepted [b] = [b.run] := by simp [accepted, hflash]
      have hnone := Coalesced.pushRun_eq_none_iff (r := b.run) h.coalesced
      dsimp only
      rw [hacc]
      rcases appendBlock_refines b.targetAddr b.payload
        (fun s hs => h.stop_lt hs) with ⟨hpush, happ⟩ | ⟨segs', happ, hpush⟩
      · exact .inl ⟨_, if_pos (hnone.mp hpush), happ⟩
      · refine .inr ⟨if_neg fun hex => ?_, segs', happ, ?_, ?_⟩
        · exact absurd ((hnone.mpr hex).symm.trans hpush) (by simp)
        · rw [coalesce_concat, h.coalesced]
          exact hpush
        · intro r hr
          rcases List.mem_append.mp hr with hr | hr
          · exact h.window r hr
          · rw [List.mem_singleton.mp hr]
            refine ⟨(hpass.window hflash).1, ?_⟩
            rw [Block.stop_run (hpass.size hflash)]
            exact (hpass.window hflash).2

/-! ### The whole loop -/

/-- Walk over blocks, numbered from `i` on, up to the first fault; `rs` are the
payloads accepted before. -/
def scan (flashEnd : UInt32) (i : Nat) (rs : List (Run UInt8)) :
    List Block → Except Uf2Error (List (Run UInt8))
  | [] => .ok rs
  | b :: bs =>
      match b.fault flashEnd i rs with
      | some e => .error e
      | none => scan flashEnd (i + 1) (rs ++ accepted [b]) bs

/-- The loop of `parse` stops with the fault `scan` finds, or ends with
segments that stand for the payloads `scan` collects. -/
theorem foldlM_parseBlock {flashEnd : UInt32} {segs : List Segment} {rs : List (Run UInt8)}
    (h : Represents flashEnd segs rs) (i : Nat) (bs : List Block) :
    (∃ e, scan flashEnd i rs bs = .error e ∧
      ((bs.map Block.toBytes).zipIdx i).foldlM (parseBlock flashEnd) segs = .err e) ∨
    (∃ rs' segs', scan flashEnd i rs bs = .ok rs' ∧
      ((bs.map Block.toBytes).zipIdx i).foldlM (parseBlock flashEnd) segs = .ok segs' ∧
      Represents flashEnd segs' rs') := by
  induction bs generalizing segs rs i with
  | nil => exact .inr ⟨rs, segs, rfl, rfl, h⟩
  | cons b bs ih =>
      simp only [List.map_cons, List.zipIdx_cons, List.foldlM_cons, scan]
      rcases parseBlock_step h i b with ⟨e, hf, hp⟩ | ⟨hf, segs', hp, h'⟩
      · exact .inl ⟨e, by simp [hf], by rw [hp, Outcome.err_bind]⟩
      · simp only [hf, hp, Outcome.ok_bind]
        exact ih h' (i + 1)

/-- What `scan` collects is what it was given and what the blocks contribute. -/
theorem scan_eq_ok {flashEnd : UInt32} {i : Nat} {rs rs' : List (Run UInt8)} {bs : List Block}
    (h : scan flashEnd i rs bs = .ok rs') : rs' = rs ++ accepted bs := by
  induction bs generalizing i rs with
  | nil =>
      obtain rfl : rs = rs' := by simpa [scan] using h
      simp
  | cons b bs ih =>
      rw [scan] at h
      split at h
      · exact absurd h (by simp)
      · rw [ih h, List.append_assoc, ← accepted_append]
        rfl

/-- `parse` on a file of at least one block. -/
theorem parse_fileBytes (flashEnd : UInt32) {bs : List Block} (hne : bs ≠ []) :
    (∃ e, scan flashEnd 0 [] bs = .error e ∧ parse (fileBytes bs) flashEnd = .err e) ∨
    (scan flashEnd 0 [] bs = .ok (accepted bs) ∧
      ((accepted bs = [] ∧ parse (fileBytes bs) flashEnd = .err .noFlashData) ∨
        (accepted bs ≠ [] ∧ ∃ segs, parse (fileBytes bs) flashEnd = .ok segs ∧
          Represents flashEnd segs (accepted bs)))) := by
  have hlen := length_fileBytes bs
  have hpos := List.length_pos_of_ne_nil hne
  have h0 : ¬ (fileBytes bs).isEmpty = true := by
    rw [List.isEmpty_iff_length_eq_zero, hlen, uf2BlockSize]
    omega
  have h1 : ¬ (fileBytes bs).length % uf2BlockSize ≠ 0 := by
    rw [hlen]
    simp
  rw [parse, if_neg h0, if_neg h1, chunksExact_fileBytes]
  rcases foldlM_parseBlock (Represents.nil flashEnd) 0 bs with
    ⟨e, hscan, hloop⟩ | ⟨rs, segs, hscan, hloop, hrep⟩
  · exact .inl ⟨e, hscan, by rw [hloop, Outcome.err_bind]⟩
  · obtain rfl : rs = accepted bs := by simpa using scan_eq_ok hscan
    refine .inr ⟨hscan, ?_⟩
    rw [hloop, Outcome.ok_bind]
    by_cases hnil : segs = []
    · subst hnil
      have hco := hrep.coalesced
      refine .inl ⟨?_, by simp⟩
      by_contra hacc
      obtain ⟨r, rs, hr⟩ := List.exists_cons_of_ne_nil hacc
      obtain ⟨s, hs, -⟩ := (coalesce_coalesced hco).inside r (by simp [hr])
      simp at hs
    · refine .inr ⟨fun hacc => hnil ?_, segs, by simp [hnil], hrep⟩
      have hco := hrep.coalesced
      rw [hacc, coalesce_nil] at hco
      simpa using (Option.some.inj hco).symm

/-! ### Files whose blocks all pass -/

/-- Every run starts at or above the end of every earlier one. -/
def Ascending (rs : List (Run UInt8)) : Prop := rs.Pairwise fun r q => r.stop ≤ q.start

instance (rs : List (Run UInt8)) : Decidable (Ascending rs) :=
  inferInstanceAs (Decidable (List.Pairwise _ _))

/-- If every block passes on its own, the walk over them succeeds exactly when
the accepted payloads ascend, and otherwise reports an overlap. -/
theorem scan_of_passes {flashEnd : UInt32} {bs : List Block} (h : ∀ b ∈ bs, b.Passes flashEnd)
    (i : Nat) {rs : List (Run UInt8)} (hrs : Ascending rs) :
    (Ascending (rs ++ accepted bs) ∧ scan flashEnd i rs bs = .ok (rs ++ accepted bs)) ∨
    (¬ Ascending (rs ++ accepted bs) ∧ ∃ a, scan flashEnd i rs bs = .error (.overlap a)) := by
  induction bs generalizing i rs with
  | nil => exact .inl (by simpa [scan] using hrs)
  | cons b bs ih =>
      have hpass := h b (List.mem_cons_self ..)
      have hrest := fun b' hb' => h b' (List.mem_cons_of_mem _ hb')
      rw [scan, Block.fault, hpass.verdict_eq]
      by_cases hflash : b.isFlash = true
      · have hacc : accepted [b] = [b.run] := by simp [accepted, hflash]
        have hsplit : rs ++ accepted (b :: bs) = (rs ++ [b.run]) ++ accepted bs := by
          simp [accepted_cons, hflash]
        rw [hsplit, if_pos hflash, hacc]
        by_cases hex : ∃ r ∈ rs, b.targetAddr.toNat < r.stop
        · simp only [hex, if_true]
          refine .inr ⟨fun hasc => ?_, _, rfl⟩
          obtain ⟨r, hr, hlt⟩ := hex
          have hle := (List.pairwise_append.mp (List.pairwise_append.mp hasc).1).2.2 r hr b.run
            (by simp)
          exact absurd hlt (Nat.not_lt.mpr hle)
        · simp only [hex, if_false]
          have hnext : Ascending (rs ++ [b.run]) := by
            refine List.pairwise_append.mpr ⟨hrs, List.pairwise_singleton _ _, ?_⟩
            intro r hr q hq
            rw [List.mem_singleton.mp hq]
            exact Nat.not_lt.mp fun hlt => hex ⟨r, hr, hlt⟩
          exact ih hrest (i + 1) hnext
      · have hacc : accepted [b] = [] := by simp [accepted, hflash]
        have hcons : accepted (b :: bs) = accepted bs := by simp [accepted_cons, hflash]
        rw [if_neg hflash, hacc, hcons, List.append_nil]
        exact ih hrest (i + 1) hrs

/-- A file whose blocks all pass and which has an accepted block parses exactly
when the accepted payloads ascend, and is otherwise rejected for an overlap. -/
theorem parse_of_passes {flashEnd : UInt32} {bs : List Block} (h : ∀ b ∈ bs, b.Passes flashEnd)
    (hacc : accepted bs ≠ []) :
    (Ascending (accepted bs) ∧ ∃ segs, parse (fileBytes bs) flashEnd = .ok segs ∧
      Represents flashEnd segs (accepted bs)) ∨
    (¬ Ascending (accepted bs) ∧ ∃ a, parse (fileBytes bs) flashEnd = .err (.overlap a)) := by
  have hne : bs ≠ [] := by
    intro heq
    subst heq
    exact hacc rfl
  have hnil : Ascending [] := List.Pairwise.nil
  have hscan := scan_of_passes h 0 hnil
  rw [List.nil_append] at hscan
  rcases parse_fileBytes flashEnd hne with
    ⟨e, hs, hp⟩ | ⟨hs, ⟨hnil, -⟩ | ⟨-, segs, hp, hrep⟩⟩
  · rcases hscan with ⟨-, hok⟩ | ⟨hno, a, herr⟩
    · simp [hs] at hok
    · obtain rfl : e = .overlap a := by simpa [hs] using herr
      exact .inr ⟨hno, a, hp⟩
  · exact absurd hnil hacc
  · rcases hscan with ⟨hasc, -⟩ | ⟨-, a, herr⟩
    · exact .inl ⟨hasc, segs, hp, hrep⟩
    · simp [hs] at herr

/-- Two segment lists that stand for the same payloads are equal. -/
theorem Represents.unique {flashEnd : UInt32} {segs segs' : List Segment} {rs : List (Run UInt8)}
    (h : Represents flashEnd segs rs) (h' : coalesce rs = some (segs'.map Segment.toRun)) :
    segs = segs' := by
  have hmap := Option.some.inj (h.coalesced.symm.trans h')
  exact List.map_injective_iff.mpr (fun _ _ => Segment.toRun_injective) hmap

end PicotoolRs
