import PicotoolRs.Bootsel.Load
import PicotoolRs.Run.Command
import PicotoolRs.Run.Fallback

/-!
# PicotoolRs.Bootsel.Run

Runs of the `load` command that are cut off.

`CutRun` is what a device with faults has made of a run after the interface was
reset: it is within the detection, or within the load of segments that the parser
gave. A command that is cut off has left memory as it was, or has come to such a
run (`runLoad_cut`).
-/

namespace PicotoolRs

open Lib Constants

/-- What a device has made of a run after opening that was cut off. -/
inductive Board.CutRun (board : Board) (bytes : List UInt8) (verify : Bool) :
    BusTrace → Bootsel → Bootsel → Prop
  /-- The detection was not over. -/
  | detecting {tr : BusTrace} {b b' : Bootsel} : board.CutAll detectSteps tr b b' →
      CutRun board bytes verify tr b b'
  | loading {t₁ t₂ : BusTrace} {b b₁ b' : Bootsel} {bound : UInt32} {segs : List Segment}
      {erases : List (UInt32 × UInt32)} :
      SectorBound bound → parse bytes bound = .ok segs → planErase segs = some erases →
      board.CutAll detectSteps t₁ b b₁ → board.CutAll (loadPlan erases segs verify) t₂ b₁ b' →
      CutRun board bytes verify (t₁ ++ t₂) b b'

section Run

variable {board : Board} {d d' : Device} {tr : BusTrace} {b b' : Bootsel} {path : Str}
  {bytes : List UInt8} {verify : Bool}

/-- The first transfers of a detection. -/
theorem detection_cut {t₁ t₂ : BusTrace}
    {r : Outcome DeviceError (Option UInt32)}
    (h : Device.detectFlashSize.Runs d (t₁ ++ t₂) r d')
    (hserves : Peer.Serves board.Reacts b t₁ b') (hb : b.stage.Harmless) :
    board.CutAll detectSteps t₁ b b' := by
  obtain ⟨o, hloop, -⟩ := detectFlashSize_runs h
  refine steps_cut hloop detectSteps_fits (fun hmem => ?_) hserves hb
  exact reboot_not_mem_detectSteps (List.dropLast_subset _ hmem)

/-- A detection that came to an end, whatever its outcome. -/
theorem detection_ended {r : Outcome DeviceError (Option UInt32)}
    (h : Device.detectFlashSize.Runs d tr r d') (hserves : Peer.Serves board.Reacts b tr b')
    (hb : b.stage.Harmless) : board.CutAll detectSteps tr b b' := by
  rw [← List.append_nil tr] at h
  exact detection_cut h hserves hb

/-- A run after opening that was cut off. -/
theorem flashFile_cut {t₁ t₂ : BusTrace} {o : Outcome RunError Unit}
    (h : (flashFile path bytes verify).Runs d (t₁ ++ t₂) o d')
    (hserves : Peer.Serves board.Reacts b t₁ b') (hb : b.stage.Harmless) :
    board.CutRun bytes verify t₁ b b' := by
  generalize htr : t₁ ++ t₂ = tr at h
  cases flashFile_runs h with
  | panicked hdetect =>
      subst htr
      exact .detecting (detection_cut hdetect hserves hb)
  | rejected hdetect _ _ =>
      subst htr
      exact .detecting (detection_cut hdetect hserves hb)
  | loaded hdetect hbound hparse hplan hload =>
      rcases List.append_eq_append_iff.mp htr with ⟨u, rfl, -⟩ | ⟨u, rfl, rfl⟩
      · exact .detecting (detection_cut hdetect hserves hb)
      · obtain ⟨b₁, hserves₁, hserves₂⟩ := Peer.serves_append.mp hserves
        have hdetected := detection_ended hdetect hserves₁ hb
        exact .loading hbound.sector hparse hplan hdetected
          (steps_cut hload (loadPlan_fits _ _ _) (loadPlan_dropLast _ _ _) hserves₂
            (hdetected.detection hb).2)

/-! ### The reset -/

/-- The device is as it was, except perhaps for the stage. -/
def SameBut (b b' : Bootsel) : Prop := b'.mem = b.mem ∧ b'.rebooting = b.rebooting

/-- The reset changes nothing but the stage, and the device waits for a packet
after it, if it succeeded. -/
theorem Board.Reacts.reset {c : Completion} (h : board.Reacts b (.reset d) c b') :
    SameBut b b' ∧ (Succeeded (.reset d, c) → b' = { b with stage := .idle }) := by
  refine ⟨⟨h.mem_eq (by cases hb : b.stage <;> simp [Bootsel.starts, Request.reset, hb]), ?_⟩, ?_⟩
  · rcases h.rebooting with h | ⟨packet, _, _, hpacket, -⟩
    · exact h
    · simp [Request.reset] at hpacket
  · intro hc
    have hserve := h.serve hc
    generalize ht : (Request.reset d).transfer = t at hserve
    cases hserve with
    | reset => rfl
    | _ => simp [Request.reset] at ht

/-- The command, cut off: either the device is as it was, or the interface was
reset and the file is being flashed. -/
theorem runLoad_cut {w : World} {argv : List Str} {args : LoadArgs}
    {s : Unit} (h : (runLoad w argv args).Cut s tr) (hserves : Peer.Serves board.Reacts b tr b') :
    SameBut b b' ∨
      ∃ bytes t, w.readFile args.file = .ok bytes ∧ commands tr = commands t ∧
        board.CutRun bytes args.verify t { b with stage := .idle } b' := by
  obtain ⟨t₂, o, s', h⟩ := h
  have hsame : Peer.Serves board.Reacts b [] b' → SameBut b b' := by
    intro hserves
    rw [Peer.serves_nil.mp hserves]
    exact ⟨rfl, rfl⟩
  have hone : ∀ {d : Device} {c : Completion} {u : BusTrace},
      tr ++ u = [(Request.reset d, c)] → SameBut b b' := by
    intro d c u htr
    cases tr with
    | nil => exact hsame hserves
    | cons ev t =>
        obtain ⟨rfl, hnil⟩ := List.cons.inj htr
        obtain ⟨rfl, -⟩ := List.append_eq_nil_iff.mp hnil
        have hreact := Peer.serves_singleton.mp hserves
        exact hreact.reset.1
  have hnone : tr ++ t₂ = [] → SameBut b b' := by
    intro htr
    obtain ⟨rfl, -⟩ := List.append_eq_nil_iff.mp htr
    exact hsame hserves
  have hrun := runLoad_runs_iff.mp h
  generalize htr : tr ++ t₂ = full at hrun
  cases hrun with
  | reexec _ => exact .inl (hnone htr)
  | unread _ _ => exact .inl (hnone htr)
  | unopened _ _ hopen hno =>
      cases hopen with
      | failed _ => exact .inl (hnone htr)
      | opened _ _ => exact absurd rfl (hno _)
      | refused _ _ => exact .inl (hone htr)
  | @flashing bytes d _ c t _ _ hbytes _ hc hflash =>
      cases tr with
      | nil => exact .inl (hsame hserves)
      | cons ev tr =>
          obtain ⟨rfl, rfl⟩ := List.cons.inj htr
          obtain ⟨b₁, hreact, hserves⟩ := Peer.serves_cons.mp hserves
          obtain rfl := hreact.reset.2 hc
          exact .inr ⟨bytes, tr, hbytes, commands_reset d c tr,
            flashFile_cut hflash hserves (by simp)⟩

/-! ### Loading -/

/-- The load in a run that got as far: flash was left alone before it. -/
inductive Board.Loading (board : Board) (bytes : List UInt8) (verify : Bool) (m : Nor.Memory)
    (b' : Bootsel) : Outcome RunError Unit → Prop
  | of_load {bound : UInt32} {segs : List Segment} {erases : List (UInt32 × UInt32)}
      {d d' : Device} {tr : BusTrace} {b₁ : Bootsel} {o : Outcome LoadError Unit} :
      SectorBound bound → parse bytes bound = .ok segs → planErase segs = some erases →
      LoopRuns Step.perform (loadPlan erases segs verify) d tr o d' →
      Peer.Serves board.Reacts b₁ tr b' → b₁.stage.Harmless →
      (board.Local → ∀ a, InFlash a → b₁.mem a = m a) →
      Loading board bytes verify m b' (o.mapErr .flashing)

theorem flashFile_loading {o : Outcome RunError Unit}
    (h : (flashFile path bytes verify).Runs d tr o d')
    (hserves : Peer.Serves board.Reacts b tr b') (hb : b.stage.Harmless)
    (ho : o = .ok () ∨ ∃ e, o = .err (.flashing e)) : board.Loading bytes verify b.mem b' o := by
  cases flashFile_runs h with
  | panicked _ => simp at ho
  | rejected _ _ _ => simp at ho
  | loaded hdetect hbound hparse hplan hload =>
      obtain ⟨b₁, hserves₁, hserves₂⟩ := Peer.serves_append.mp hserves
      obtain ⟨hkept, hb₁⟩ := (detection_ended hdetect hserves₁ hb).detection hb
      exact .of_load hbound.sector hparse hplan hload hserves₂ hb₁ hkept

/-- A command that returns, or that fails with the flashing, has got to the load. -/
theorem runLoad_loading {w : World} {argv : List Str} {args : LoadArgs} {s s' : Unit}
    {o : Outcome RunError Unit} (h : (runLoad w argv args).Runs s tr o s')
    (hserves : Peer.Serves board.Reacts b tr b')
    (ho : o = .ok () ∨ ∃ e, o = .err (.flashing e)) :
    ∃ bytes, w.readFile args.file = .ok bytes ∧ board.Loading bytes args.verify b.mem b' o := by
  cases runLoad_runs_iff.mp h with
  | @reexec path _ =>
      obtain ⟨e, he, hno⟩ := reexecViaTermux_fails w path argv
      rw [he] at ho
      rcases ho with ho | ⟨e', ho⟩
      · cases ho
      · exact absurd (Outcome.err.inj ho) (hno e')
  | unread _ _ => simp at ho
  | @unopened _ _ o₁ _ _ _ hno =>
      cases o₁ with
      | ok d => exact absurd rfl (hno d)
      | err e => rcases ho with ho | ⟨_, ho⟩ <;> cases ho
      | panic => rcases ho with ho | ⟨_, ho⟩ <;> cases ho
  | @flashing bytes d _ c t _ _ hbytes _ hc hflash =>
      obtain ⟨b₁, hreact, hserves⟩ := Peer.serves_cons.mp hserves
      obtain rfl := hreact.reset.2 hc
      have hload := flashFile_loading hflash hserves (by simp) ho
      exact ⟨bytes, hbytes, hload⟩

end Run

end PicotoolRs
