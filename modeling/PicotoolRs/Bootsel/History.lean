import PicotoolRs.Bootsel.Install

/-!
# PicotoolRs.Bootsel.History

Any history of runs.

Runs of the tool follow one another on one device, for whatever files and from
whatever hosts, and each of them may return, fail or be cut off. Address by
address, the last run for the sector, one whose segments reach into it, counts and
no other (`history_settled`): if it returned, the byte is that of its image, or an
erased one, and if no run was for the sector, the byte is what it was in the
beginning.
-/

namespace PicotoolRs

open Lib Constants

/-- The segments of the file that a run is for: none, if it cannot be read or is
rejected. -/
def World.image (w : World) (args : LoadArgs) : List Segment :=
  match w.readFile args.file with
  | .ok bytes =>
      match parse bytes flashEnd with
      | .ok segs => segs
      | _ => []
  | .error _ => []

/-- A run of the past, as it counts later. -/
structure Past where
  image : List Segment
  /-- The run returned without an error. -/
  returned : Bool

/-- What a run makes of the device. -/
inductive Board.Attempted (board : Board) : Past → Bootsel → Bootsel → Prop
  /-- The run was cut off, or it ended somehow. -/
  | cut {w : World} {argv : List Str} {args : LoadArgs} {s : Unit} {tr : BusTrace}
      {b b' : Bootsel} : (runLoad w argv args).Cut s tr → Peer.Serves board.Reacts b tr b' →
      Attempted board ⟨w.image args, false⟩ b b'
  /-- The run returned. -/
  | returned {w : World} {argv : List Str} {args : LoadArgs} {s s' : Unit} {tr : BusTrace}
      {b b' : Bootsel} : (runLoad w argv args).Runs s tr (.ok ()) s' →
      Peer.Serves board.Reacts b tr b' → Attempted board ⟨w.image args, true⟩ b b'

/-- Runs one after the other, the last one at the end of the list. In between, the
device may be reset or lose its power, and keeps its flash. -/
inductive Board.History (board : Board) : List Past → Bootsel → Bootsel → Prop
  | start {b b' : Bootsel} : (∀ a, InFlash a → b'.mem a = b.mem a) → History board [] b b'
  | next {past : List Past} {run : Past} {b b₁ b₂ b' : Bootsel} : History board past b b₁ →
      board.Attempted run b₁ b₂ → (∀ a, InFlash a → b'.mem a = b₂.mem a) →
      History board (past ++ [run]) b b'

/-- The last run for the sector of an address: the last with a segment that reaches
into it. -/
def lastFor (past : List Past) (a : Nat) : Option Past :=
  (past.filter fun run => InSectors run.image a).getLast?

theorem lastFor_concat (past : List Past) (run : Past) (a : Nat) :
    lastFor (past ++ [run]) a = if InSectors run.image a then some run else lastFor past a := by
  rw [lastFor, List.filter_append]
  by_cases h : InSectors run.image a <;> simp [h, lastFor]

/-- At this address, memory is what the last run for the sector wrote, if that run
returned, and what it was before if there was none. -/
def Settled (past : List Past) (m m' : Nor.Memory) (a : Nat) : Prop :=
  match lastFor past a with
  | some run => run.returned = true → m' a = (imageByte run.image a).getD Nor.erased
  | none => m' a = m a

section History

variable {board : Board} {run : Past} {b b' : Bootsel} {a : Nat}

theorem World.image_eq {w : World} {args : LoadArgs} {bytes : List UInt8} {segs : List Segment}
    (hbytes : w.readFile args.file = .ok bytes) (hparse : parse bytes flashEnd = .ok segs) :
    w.image args = segs := by
  simp only [World.image, hbytes, hparse]

/-- Outside the sectors that its segments reach into, a run changes nothing. -/
theorem Board.Attempted.outside (h : board.Attempted run b b') (hboard : board.Healthy)
    (hflash : InFlash a) (hout : ¬ InSectors run.image a) : b'.mem a = b.mem a := by
  have hcut : ∀ {w : World} {argv : List Str} {args : LoadArgs} {s : Unit} {tr : BusTrace},
      (runLoad w argv args).Cut s tr → Peer.Serves board.Reacts b tr b' →
      ¬ InSectors (w.image args) a → b'.mem a = b.mem a := by
    intro w argv args s tr hcut hserves hout
    by_contra ha
    obtain ⟨bytes, segs, hbytes, hparse, hin⟩ :=
      runLoad_contained hboard.local hcut hserves hflash ha
    exact hout (World.image_eq hbytes hparse ▸ hin)
  cases h with
  | cut h hserves => exact hcut h hserves hout
  | returned h hserves => exact hcut h.cut hserves hout

/-- In the sectors that its segments reach into, a run that returned leaves the image.
-/
theorem Board.Attempted.inside (h : board.Attempted run b b') (hboard : board.Healthy)
    (hreturned : run.returned = true) (hin : InSectors run.image a) :
    b'.mem a = (imageByte run.image a).getD Nor.erased := by
  cases h with
  | cut _ _ => simp at hreturned
  | returned h hserves =>
      obtain ⟨bytes, segs, hbytes, hparse, hflashed⟩ := runLoad_flashed hboard h hserves
      have himage := World.image_eq hbytes hparse
      simp only [himage] at hin ⊢
      have hrep := parse_represents hparse
      have hflash := inFlash_of_inSectors hrep sectorBound_flashEnd hin
      rw [(flashed_iff hrep sectorBound_flashEnd).mp hflashed a hflash, install, if_pos hin]

/-- After any history of runs on a healthy board, whatever became of each of them,
every byte of flash is what the last run for its sector wrote there, if that run
returned, and what it was in the beginning, if no run was for its sector. By
induction on the history, from its end. -/
theorem history_settled {past : List Past} (hboard : board.Healthy)
    (h : board.History past b b') (hflash : InFlash a) : Settled past b.mem b'.mem a := by
  induction h with
  | start hkept => exact hkept a hflash
  | @next past run b b₁ b₂ b' _ hrun hkept ih =>
      unfold Settled at ih ⊢
      rw [lastFor_concat, hkept a hflash]
      by_cases hin : InSectors run.image a
      · rw [if_pos hin]
        exact fun hreturned => hrun.inside hboard hreturned hin
      · rw [if_neg hin, hrun.outside hboard hflash hin]
        exact ih

/-- A run that is cut off, a run that returns, and a power cycle. -/
theorem history_settled_oneByte :
    let image : List Segment := [⟨flashStart, [0]⟩]
    ∃ b', smallChip.History [⟨image, false⟩, ⟨image, true⟩] leftBusy b' ∧
      b'.mem (flashStart.toNat + 1) = Nor.erased := by
  intro image
  have himage : (oneDevice oneByteFile).image (verifiedLoad []) = image :=
    World.image_eq rfl (by decide +kernel)
  obtain ⟨t, b₁, hcut, hserves⟩ := exists_cut 20 leftBusy rfl
  obtain ⟨tr, b₂, hrun, hserves', -⟩ := exists_load ⟨.idle, true, false, b₁.mem⟩ rfl
  have hfirst := Board.Attempted.cut hcut hserves
  have hsecond := Board.Attempted.returned hrun hserves'
  rw [himage] at hfirst hsecond
  have hpast : smallChip.History [⟨image, false⟩] leftBusy ⟨.idle, true, false, b₁.mem⟩ :=
    .next (.start fun _ _ => rfl) hfirst fun _ _ => rfl
  have hboth : smallChip.History [⟨image, false⟩, ⟨image, true⟩] leftBusy
      ⟨.idle, true, false, b₂.mem⟩ :=
    .next hpast hsecond fun _ _ => rfl
  have hflash : InFlash (flashStart.toNat + 1) := by decide
  have hin : InSectors image (flashStart.toNat + 1) := by decide
  have hlast : lastFor [⟨image, false⟩, ⟨image, true⟩] (flashStart.toNat + 1) =
      some ⟨image, true⟩ :=
    (lastFor_concat [⟨image, false⟩] _ _).trans (if_pos hin)
  have hsettled := history_settled smallChip_healthy hboth hflash
  rw [Settled, hlast] at hsettled
  have hnone : imageByte image (flashStart.toNat + 1) = none := by decide
  refine ⟨_, hboth, (hsettled rfl).trans ?_⟩
  rw [hnone, Option.getD_none]

end History

end PicotoolRs
