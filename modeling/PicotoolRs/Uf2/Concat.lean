import PicotoolRs.Uf2.Empty

/-!
# PicotoolRs.Uf2.Concat

Files one after the other, and files for one and the same image.

Two UF2 files can be joined with `cat`, and build tools do join them (a boot
loader and an application in one file). What the parser makes of the result
depends on the two files only through their segments: it is what `append_block`
makes of appending the segments of the second to those of the first
(`parse_append`). And what it makes of a single file depends only on the bytes
that the file puts at each address, not on how they are cut into blocks
(`parse_determined`).
-/

namespace PicotoolRs

open Lib Constants

/-- Append segments one by one, as the parser appends payloads. -/
def appendSegments (segs segs' : List Segment) : Outcome Uf2Error (List Segment) :=
  segs'.foldlM (fun segs s => appendBlock segs s.addr s.data) segs

/-! ### Appending segments -/

section Append

variable {flashEnd : UInt32} {segs ss : List Segment} {rs : List (Run UInt8)}

/-- Segments that coalesce with what is there are appended without overflow. By
induction on the segments; the next one finds a list that stands for all payloads
before it. -/
theorem appendSegments_ok {out : List (Run UInt8)} (h : Represents flashEnd segs rs)
    (hwin : ∀ s ∈ ss, flashStart.toNat ≤ s.toRun.start ∧ s.toRun.stop ≤ flashEnd.toNat)
    (hout : (ss.map Segment.toRun).foldlM pushRun (segs.map Segment.toRun) = some out) :
    ∃ segs', appendSegments segs ss = .ok segs' ∧ segs'.map Segment.toRun = out := by
  induction ss generalizing segs rs with
  | nil => exact ⟨segs, rfl, Option.some.inj hout⟩
  | cons s ss ih =>
      obtain ⟨hs, hss⟩ := List.forall_mem_cons.mp hwin
      rw [List.map_cons, List.foldlM_cons] at hout
      obtain ⟨mid, hmid, hrest⟩ := Option.bind_eq_some_iff.mp hout
      rcases appendBlock_refines s.addr s.data (fun _ => h.stop_lt) with
        ⟨hnone, -⟩ | ⟨segs', happ, hpush⟩
      · rw [Segment.toRun, hnone] at hmid
        simp at hmid
      · obtain rfl : segs'.map Segment.toRun = mid :=
          Option.some.inj (hpush.symm.trans hmid)
        have hnext : Represents flashEnd segs' (rs ++ [s.toRun]) :=
          { coalesced := by
              rw [coalesce_concat, h.coalesced]
              exact hpush
            window := by
              simp only [List.forall_mem_append, List.forall_mem_singleton]
              exact ⟨h.window, hs⟩ }
        obtain ⟨segs'', happs, heq⟩ := ih hnext hss hrest
        refine ⟨segs'', ?_, heq⟩
        rw [appendSegments, List.foldlM_cons, happ]
        exact happs

/-- A segment below the end of what is there is refused, and the ones after it are
not looked at. -/
theorem appendSegments_overlap {s : Segment} (h : Represents flashEnd segs rs)
    (hlow : ∃ r ∈ rs, s.addr.toNat < r.stop) :
    appendSegments segs (s :: ss) = .err (.overlap s.addr) := by
  have hnone : pushRun (segs.map Segment.toRun) s.toRun = none :=
    (Coalesced.pushRun_eq_none_iff h.coalesced).mpr hlow
  rcases appendBlock_refines s.addr s.data (fun _ => h.stop_lt) with
    ⟨-, herr⟩ | ⟨segs', -, hpush⟩
  · rw [appendSegments, List.foldlM_cons, herr]
    rfl
  · exact absurd (hnone.symm.trans hpush) (by simp)

end Append

/-! ### Two files -/

/-- The block that opens what a list of blocks contributes. -/
theorem exists_first_accepted {bs : List Block} (h : accepted bs ≠ []) :
    ∃ pre b post, bs = pre ++ b :: post ∧ accepted pre = [] ∧ b.isFlash := by
  induction bs with
  | nil => exact absurd rfl h
  | cons b bs ih =>
      by_cases hb : b.isFlash = true
      · exact ⟨[], b, bs, rfl, rfl, hb⟩
      · rw [accepted_cons, if_neg hb] at h
        obtain ⟨pre, b', post, rfl, hpre, hb'⟩ := ih h
        exact ⟨b :: pre, b', post, rfl, by rw [accepted_cons, if_neg hb, hpre], hb'⟩

/-- Every segment of the second list starts at or above the end of every segment
of the first. -/
def Follows (segs segs' : List Segment) : Prop :=
  ∀ s ∈ segs, ∀ t ∈ segs', s.toRun.stop ≤ t.toRun.start

section Files

variable {flashEnd : UInt32} {segs segs' : List Segment} {rs rs' : List (Run UInt8)}

/-- Segments follow each other as the payloads they stand for do. -/
theorem follows_iff (h : Represents flashEnd segs rs) (h' : Represents flashEnd segs' rs') :
    Follows segs segs' ↔ ∀ r ∈ rs, ∀ q ∈ rs', r.stop ≤ q.start := by
  have hco := h.toCoalesced
  have hco' := h'.toCoalesced
  constructor
  · intro hf r hr q hq
    obtain ⟨s, hs, -, hstop⟩ := hco.inside r hr
    obtain ⟨t, ht, hstart, -⟩ := hco'.inside q hq
    obtain ⟨s, hs', rfl⟩ := List.mem_map.mp hs
    obtain ⟨t, ht', rfl⟩ := List.mem_map.mp ht
    exact hstop.trans ((hf s hs' t ht').trans hstart)
  · intro hf s hs t ht
    obtain ⟨r, hr, hstop⟩ := hco.stop_mem _ (List.mem_map_of_mem hs)
    obtain ⟨q, hq, hstart⟩ := hco'.start_mem _ (List.mem_map_of_mem ht)
    rw [hstop, hstart]
    exact hf r hr q hq

theorem ascending_append_iff (h : Represents flashEnd segs rs)
    (h' : Represents flashEnd segs' rs') : Ascending (rs ++ rs') ↔ Follows segs segs' := by
  have hasc : Ascending rs := coalesce_eq_some_iff.mp ⟨_, h.coalesced⟩
  have hasc' : Ascending rs' := coalesce_eq_some_iff.mp ⟨_, h'.coalesced⟩
  rw [follows_iff h h', Ascending, List.pairwise_append]
  exact ⟨fun hall => hall.2.2, fun hall => ⟨hasc, hasc', hall⟩⟩

/-- Two files of which the second follows the first are accepted together. -/
theorem joined_of_follows {bs bs' : List Block} (hrep : Represents flashEnd segs (accepted bs))
    (hrep' : Represents flashEnd segs' (accepted bs')) (hacc : accepted bs ≠ [])
    (hpass : ∀ b ∈ bs ++ bs', b.Passes flashEnd) (hf : Follows segs segs') :
    ∃ out, parse (fileBytes (bs ++ bs')) flashEnd = .ok out ∧
      appendSegments segs segs' = .ok out ∧
      Represents flashEnd out (accepted bs ++ accepted bs') := by
  have hne : accepted (bs ++ bs') ≠ [] := by
    rw [accepted_append]
    exact List.append_ne_nil_of_left_ne_nil hacc _
  have hasc := (ascending_append_iff hrep hrep').mpr hf
  rcases parse_of_passes hpass hne with ⟨-, out, hparse, hout⟩ | ⟨hno, -⟩
  · rw [accepted_append] at hout
    have hco := coalesce_append hrep.coalesced hrep'.coalesced
    rw [hout.coalesced] at hco
    obtain ⟨out', happ, heq⟩ := appendSegments_ok hrep (fun _ => hrep'.segment_window) hco.symm
    obtain rfl : out = out' := hout.unique (hout.coalesced.trans (by rw [heq]))
    exact ⟨out, hparse, happ, hout⟩
  · rw [accepted_append] at hno
    exact absurd hasc hno

/-- The outcome for two files that do not follow each other: both ways round, the
first segment of the second file is named. -/
theorem overlap_of_not_follows {bs bs' : List Block} (hrep : Represents flashEnd segs (accepted bs))
    (hrep' : Represents flashEnd segs' (accepted bs')) (hacc : accepted bs' ≠ [])
    (hpass : ∀ b ∈ bs ++ bs', b.Passes flashEnd) (hno : ¬ Follows segs segs') :
    ∃ e, parse (fileBytes (bs ++ bs')) flashEnd = .err e ∧ appendSegments segs segs' = .err e := by
  obtain ⟨pre, b, post, rfl, hpre, hb⟩ := exists_first_accepted hacc
  have hsplit : accepted (pre ++ b :: post) = b.run :: accepted post := by
    rw [accepted_split hb, hpre, List.nil_append]
  -- the second file's segments open where its first accepted block does
  have hco' := hrep'.coalesced
  rw [hsplit] at hco'
  obtain ⟨t, ts, hmap, hstart⟩ := coalesce_head hco'
  obtain ⟨t, ts, rfl, rfl, rfl⟩ := List.map_eq_cons_iff.mp hmap
  have haddr : t.addr = b.targetAddr := UInt32.toNat_inj.mp hstart
  have hasc' : Ascending (b.run :: accepted post) := coalesce_eq_some_iff.mp ⟨_, hco'⟩
  have hlow : ∃ r ∈ accepted bs, b.targetAddr.toNat < r.stop := by
    by_contra hle
    refine hno ((follows_iff hrep hrep').mpr fun r hr q hq => ?_)
    have hrb : r.stop ≤ b.run.start := Nat.not_lt.mp fun hlt => hle ⟨r, hr, hlt⟩
    rw [hsplit] at hq
    rcases List.mem_cons.mp hq with rfl | hq
    · exact hrb
    · exact hrb.trans (b.run.start_le_stop.trans ((List.pairwise_cons.mp hasc').1 q hq))
  refine ⟨.overlap b.targetAddr, parse_of_firstViolation ?_, ?_⟩
  · -- nothing before that block breaks a rule
    have hquiet : accepted (bs ++ pre) = accepted bs := by
      rw [accepted_append, hpre, List.append_nil]
    have hbp := hpass b (by simp)
    refine ⟨bs ++ pre, b, post, by simp, ?_, ?_⟩
    · refine unbroken_of_passes (fun c hc => hpass c ?_) ?_
      · simp only [List.mem_append, List.mem_cons] at hc ⊢
        tauto
      · rw [hquiet]
        exact coalesce_eq_some_iff.mp ⟨_, hrep.coalesced⟩
    · rw [hquiet]
      exact .overlap hbp.magic hb (hbp.size hb) (hbp.window hb) hlow
  · rw [← haddr] at hlow ⊢
    exact appendSegments_overlap hrep hlow

end Files

/-- What the parser makes of two files, one after the other. -/
structure Joins (flashEnd : UInt32) (f f' : List UInt8) (segs segs' : List Segment) : Prop where
  /-- The outcome is that of appending the segments, the error included. -/
  outcome : parse (f ++ f') flashEnd = appendSegments segs segs'
  /-- The joined file is accepted exactly if the second image lies above the first. -/
  accepts : (∃ out, parse (f ++ f') flashEnd = .ok out) ↔ Follows segs segs'
  /-- Then it holds what the two files hold. -/
  holds : ∀ out, parse (f ++ f') flashEnd = .ok out → ∀ a v,
    (∃ s ∈ out, s.toRun.Holds a v) ↔
      (∃ s ∈ segs, s.toRun.Holds a v) ∨ ∃ s ∈ segs', s.toRun.Holds a v

/-- Of two files that parse, the parser sees only the segments when it is given one
after the other. -/
theorem parse_append (flashEnd : UInt32) (f f' : List UInt8) (segs segs' : List Segment)
    (h : parse f flashEnd = .ok segs) (h' : parse f' flashEnd = .ok segs') :
    Joins flashEnd f f' segs segs' := by
  obtain ⟨bs, rfl, -, hacc, hrep⟩ := parse_eq_ok h
  obtain ⟨bs', rfl, -, hacc', hrep'⟩ := parse_eq_ok h'
  have hjoin : fileBytes bs ++ fileBytes bs' = fileBytes (bs ++ bs') := by
    simp [fileBytes]
  have hall : ∀ b ∈ bs ++ bs', b.Passes flashEnd := by
    simp only [List.forall_mem_append]
    exact ⟨passes_of_parse h, passes_of_parse h'⟩
  by_cases hf : Follows segs segs'
  · obtain ⟨out, hparse, happ, hout⟩ := joined_of_follows hrep hrep' hacc hall hf
    rw [← hjoin] at hparse
    refine ⟨hparse.trans happ.symm, ⟨fun _ => hf, fun _ => ⟨out, hparse⟩⟩, fun out' hout' a v => ?_⟩
    obtain rfl : out = out' := Outcome.ok.inj (hparse.symm.trans hout')
    rw [hout.holds, hrep.holds, hrep'.holds]
    simp only [List.mem_append, or_and_right, exists_or]
  · obtain ⟨e, hparse, happ⟩ := overlap_of_not_follows hrep hrep' hacc' hall hf
    rw [← hjoin] at hparse
    have hno : ¬ ∃ out, parse (fileBytes bs ++ fileBytes bs') flashEnd = .ok out := by
      simp [hparse]
    exact ⟨hparse.trans happ.symm, iff_of_false hno hf, fun out hout => absurd ⟨out, hout⟩ hno⟩

/-- Two files of one block each, the second where the first ends. -/
theorem parse_append_adjacent :
    let f := fileBytes [.build uf2FlagFamilyIdPresent flashStart rp2040FamilyId [1, 2] (by decide)]
    let f' := fileBytes
      [.build uf2FlagFamilyIdPresent (flashStart + 2) rp2040FamilyId [3] (by decide)]
    Joins flashEnd f f' [⟨flashStart, [1, 2]⟩] [⟨flashStart + 2, [3]⟩] :=
  parse_append _ _ _ _ _ (by decide +kernel) (by decide +kernel)

/-! ### One image -/

/-- Of two files whose segments all carry a byte, the parser makes the same segments
exactly if their accepted blocks put the same bytes at the same addresses, however
each of them is cut into blocks, whatever else the blocks say, and whatever other
blocks there are. -/
theorem parse_determined (flashEnd : UInt32) (f f' : List UInt8) (segs segs' : List Segment)
    (h : parse f flashEnd = .ok segs) (h' : parse f' flashEnd = .ok segs')
    (hne : ∀ s ∈ segs, s.data ≠ []) (hne' : ∀ s ∈ segs', s.data ≠ []) :
    segs = segs' ↔ ∀ a v, (∃ b ∈ fileBlocks f, b.isFlash ∧ b.run.Holds a v) ↔
      ∃ b ∈ fileBlocks f', b.isFlash ∧ b.run.Holds a v := by
  have hrep := parse_represents h
  have hrep' := parse_represents h'
  have hblocks : ∀ (bs : List Block) a v, (∃ r ∈ accepted bs, r.Holds a v) ↔
      ∃ b ∈ bs, b.isFlash ∧ b.run.Holds a v := fun bs a v => by
    simp [accepted, and_assoc]
  simp only [← hblocks, ← hrep.holds, ← hrep'.holds]
  constructor
  · intro heq a v
    rw [heq]
  · intro hall
    have hmap : segs.map Segment.toRun = segs'.map Segment.toRun := by
      refine hrep.toCoalesced.separated.eq_of_holds hrep'.toCoalesced.separated ?_ ?_ ?_
      · simpa using hne
      · simpa using hne'
      · simpa using hall
    exact List.map_injective_iff.mpr (fun _ _ => Segment.toRun_injective) hmap

/-- The same three bytes in one block, and in two with a foreign block between
them. -/
theorem parse_determined_cut :
    let f := fileBytes
      [.build uf2FlagFamilyIdPresent flashStart rp2040FamilyId [1, 2, 3] (by decide)]
    let f' := fileBytes
      [.build uf2FlagFamilyIdPresent flashStart rp2040FamilyId [1, 2] (by decide),
        .build uf2FlagFamilyIdPresent flashStart 0 [9] (by decide),
        .build uf2FlagFamilyIdPresent (flashStart + 2) rp2040FamilyId [3] (by decide)]
    let segs : List Segment := [⟨flashStart, [1, 2, 3]⟩]
    segs = segs ↔ ∀ a v, (∃ b ∈ fileBlocks f, b.isFlash ∧ b.run.Holds a v) ↔
      ∃ b ∈ fileBlocks f', b.isFlash ∧ b.run.Holds a v :=
  parse_determined flashEnd _ _ _ _ (by decide +kernel) (by decide +kernel) (by decide) (by decide)

end PicotoolRs
