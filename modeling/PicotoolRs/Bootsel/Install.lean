import PicotoolRs.Bootsel.Retry

/-!
# PicotoolRs.Bootsel.Install

What the tool is for, as a function on memory.

`install` puts the segments into the sectors that they reach into and leaves the
rest alone. For segments of the parser, flash in which an image was flashed is flash
in which it was installed (`flashed_iff`), so that the flash after any number of
loads is known from the files alone (`loads_install`).
-/

namespace PicotoolRs

open Lib Constants

instance (segs : List Segment) (a : Nat) : Decidable (InSectors segs a) :=
  inferInstanceAs (Decidable (∃ s ∈ segs, _))

/-- The byte that the segments have at an address. -/
def imageByte (segs : List Segment) (a : Nat) : Option UInt8 :=
  segs.findSome? fun s => if s.addr.toNat ≤ a then s.data[a - s.addr.toNat]? else none

/-- Memory with the segments installed. -/
def install (segs : List Segment) (m : Nor.Memory) : Nor.Memory := fun a =>
  if InSectors segs a then (imageByte segs a).getD Nor.erased else m a

/-- Memory with one image after the other installed. -/
def installAll (images : List (List Segment)) (m : Nor.Memory) : Nor.Memory :=
  images.foldl (fun m segs => install segs m) m

/-- The two reach into no sector in common. -/
def Apart (segs segs' : List Segment) : Prop := ∀ a, InSectors segs a → ¬ InSectors segs' a

section Install

variable {segs segs' : List Segment} {m m' : Nor.Memory} {a : Nat} {v : UInt8}

/-! ### The image -/

theorem holds_of_imageByte (h : imageByte segs a = some v) : ∃ s ∈ segs, s.toRun.Holds a v := by
  obtain ⟨s, hs, hv⟩ := List.exists_of_findSome?_eq_some h
  split at hv
  · next hle => exact ⟨s, hs, hle, hv⟩
  · simp at hv

theorem imageByte_of_not_covers (h : ∀ s ∈ segs, ¬ s.toRun.Covers a) : imageByte segs a = none := by
  cases hv : imageByte segs a with
  | none => rfl
  | some v =>
      obtain ⟨s, hs, hsv⟩ := holds_of_imageByte hv
      exact absurd hsv.covers (h s hs)

theorem imageByte_of_holds (hsep : Separated (segs.map Segment.toRun)) {s : Segment} (hs : s ∈ segs)
    (h : s.toRun.Holds a v) : imageByte segs a = some v := by
  cases hw : imageByte segs a with
  | none =>
      have hnone := List.findSome?_eq_none_iff.mp hw s hs
      rw [if_pos (show s.addr.toNat ≤ a from h.1)] at hnone
      simp [show s.data[a - s.addr.toNat]? = some v from h.2] at hnone
  | some w =>
      obtain ⟨t, ht, htw⟩ := holds_of_imageByte hw
      -- the two segments reach the address, and so are the same
      have heq := hsep.eq_of_touch (List.mem_map_of_mem ht) (List.mem_map_of_mem hs)
        ⟨htw.covers.1, htw.covers.2.le⟩ ⟨h.covers.1, h.covers.2.le⟩
      rw [heq] at htw
      exact htw.2.symm.trans h.2

/-- In flash where an image was flashed, it was installed. -/
theorem flashed_iff {bound : UInt32} {rs : List (Run UInt8)} (hrep : Represents bound segs rs)
    (hb : SectorBound bound) :
    Flashed segs m m' ↔ ∀ a, InFlash a → m' a = install segs m a := by
  have hsep := (coalesce_coalesced hrep.coalesced).separated
  constructor
  · intro h a hflash
    unfold install
    split
    · next hin =>
      by_cases hcov : ∃ s ∈ segs, s.toRun.Covers a
      · obtain ⟨s, hs, hsa⟩ := hcov
        obtain ⟨v, hv⟩ := hsa.holds
        rw [imageByte_of_holds hsep hs hv, h.payload s hs a v hv, Option.getD_some]
      · have hno : ∀ s ∈ segs, ¬ s.toRun.Covers a := fun s hs hsa => hcov ⟨s, hs, hsa⟩
        rw [imageByte_of_not_covers hno, h.erased a hin hno, Option.getD_none]
    · next hout => exact h.unchanged a hflash hout
  · intro h
    constructor
    case payload =>
      intro s hs a v hv
      have hin := inSectors_of_covers hs hv.covers
      rw [h a (inFlash_of_inSectors hrep hb hin), install, if_pos hin,
        imageByte_of_holds hsep hs hv, Option.getD_some]
    case erased =>
      intro a hin hno
      rw [h a (inFlash_of_inSectors hrep hb hin), install, if_pos hin,
        imageByte_of_not_covers hno, Option.getD_none]
    case unchanged =>
      intro a hflash hout
      rw [h a hflash, install, if_neg hout]

/-! ### One image after the other -/

theorem install_congr (h : m a = m' a) : install segs m a = install segs m' a := by
  unfold install
  split
  · rfl
  · exact h

theorem installAll_concat (images : List (List Segment)) (segs : List Segment) (m : Nor.Memory) :
    installAll (images ++ [segs]) m = install segs (installAll images m) := by
  rw [installAll, List.foldl_append]
  rfl

/-- Images that reach into no common sector can be installed in either order. -/
theorem install_comm (h : Apart segs segs') (m : Nor.Memory) :
    install segs' (install segs m) = install segs (install segs' m) := by
  funext a
  have ha := h a
  unfold install
  split
  · next hin' => rw [if_neg fun hin => ha hin hin']
  · rfl

/-- Images of which no two reach into a common sector can be installed in any order.
-/
theorem installAll_perm {images images' : List (List Segment)} (hperm : images.Perm images')
    (h : images.Pairwise Apart) (m : Nor.Memory) :
    installAll images' m = installAll images m := by
  have hcomm := List.Pairwise.forall_of_forall_of_flip
    (R := fun segs segs' => ∀ m, install segs' (install segs m) = install segs (install segs' m))
    (fun _ _ _ => rfl) (h.imp install_comm) (h.imp fun hapart m => (install_comm hapart m).symm)
  exact (hperm.foldl_eq' hcomm m).symm

end Install

/-! ### Any number of loads -/

/-- Loads of these files, one after the other, that returned. Before each there may
be any number of runs for the same file that were cut off or failed, and the device
may be reset or lose its power in between. -/
inductive Board.Loads (board : Board) : List (List UInt8) → Bootsel → Bootsel → Prop
  | none {b : Bootsel} : Loads board [] b b
  | load {files : List (List UInt8)} {bytes : List UInt8} {b b₁ b₂ b₃ : Bootsel} {w : World}
      {argv : List Str} {args : LoadArgs} {s s' : Unit} {tr : BusTrace} :
      Loads board files b b₁ → board.Tries bytes b₁ b₂ → w.readFile args.file = .ok bytes →
      (runLoad w argv args).Runs s tr (.ok ()) s' → Peer.Serves board.Reacts b₂ tr b₃ →
      Loads board (files ++ [bytes]) b b₃

/-- After any number of loads that returned, each perhaps after runs that were cut
off or failed, flash is what it was with the images of the files installed one
after the other; and if no two of them reach into a common sector, the order is of
no account. -/
theorem loads_install {board : Board} {files : List (List UInt8)} {b b' : Bootsel}
    (hboard : board.Healthy) (h : board.Loads files b b') :
    ∃ images, List.Forall₂ (fun bytes segs => parse bytes flashEnd = .ok segs) files images ∧
      (∀ a, InFlash a → b'.mem a = installAll images b.mem a) ∧
      ∀ images', images.Perm images' → images.Pairwise Apart →
        installAll images' b.mem = installAll images b.mem := by
  have hall : ∃ images,
      List.Forall₂ (fun bytes segs => parse bytes flashEnd = .ok segs) files images ∧
        ∀ a, InFlash a → b'.mem a = installAll images b.mem a := by
    induction h with
    | none => exact ⟨[], .nil, fun _ _ => rfl⟩
    | load _ htries hbytes hrun hserves ih =>
        obtain ⟨images, himages, hmem⟩ := ih
        obtain ⟨segs, hparse, hflashed⟩ := htries.flashed hboard hbytes hrun hserves
        refine ⟨images ++ [segs], ?_, fun a ha => ?_⟩
        · exact List.rel_append himages (.cons hparse .nil)
        · have hrep := parse_represents hparse
          have hstep := (flashed_iff hrep sectorBound_flashEnd).mp hflashed a ha
          rw [hstep, installAll_concat]
          exact install_congr (hmem a ha)
  obtain ⟨images, himages, hmem⟩ := hall
  exact ⟨images, himages, hmem, fun images' hperm h => installAll_perm hperm h b.mem⟩

/-- A run that is cut off, a power cycle, and a run that returns. -/
theorem loads_install_oneByte :
    ∃ (b₁ b' : Bootsel), smallChip.Tries oneByteFile leftBusy ⟨.idle, true, false, b₁.mem⟩ ∧
      smallChip.Loads [oneByteFile] leftBusy b' ∧
      ∃ images, List.Forall₂ (fun bytes segs => parse bytes flashEnd = .ok segs)
          [oneByteFile] images ∧
        (∀ a, InFlash a → b'.mem a = installAll images leftBusy.mem a) ∧
        ∀ images', images.Perm images' → images.Pairwise Apart →
          installAll images' leftBusy.mem = installAll images leftBusy.mem := by
  obtain ⟨t, b₁, hcut, hserves⟩ := exists_cut 20 leftBusy rfl
  obtain ⟨tr, b', hrun, hserves', -⟩ := exists_load ⟨.idle, true, false, b₁.mem⟩ rfl
  have htries : smallChip.Tries oneByteFile leftBusy ⟨.idle, true, false, b₁.mem⟩ :=
    .again (.start fun _ _ => rfl) rfl hcut hserves fun _ _ => rfl
  have hloads : smallChip.Loads [oneByteFile] leftBusy b' :=
    .load .none htries rfl hrun hserves'
  exact ⟨b₁, b', htries, hloads, loads_install smallChip_healthy hloads⟩

end PicotoolRs
