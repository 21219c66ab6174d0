import PicotoolRs.Load.Steps
import PicotoolRs.Main

/-!
# PicotoolRs.Run.Detect

The flash-size detection and the bound it gives.

Whatever the device answers, `resolve_flash_end` returns the conservative bound
or the start of flash plus a power of two from 64 KiB to 16 MiB
(`Resolvable.bounds`).
-/

namespace PicotoolRs

open Lib Constants

/-! ### The bound -/

/-- `resolve_flash_end` can return this bound. -/
def Resolvable (flashEnd : UInt32) : Prop :=
  ∃ d tr d', (resolveFlashEnd : Session Request Completion Device RunError UInt32).Runs d tr
    (.ok flashEnd) d'

/-- A size that is detected was decoded from three bytes. -/
theorem detectFlashSize_ok {d d' : Device} {tr : BusTrace} {r : Option UInt32}
    (h : Device.detectFlashSize.Runs d tr (.ok r) d') : ∃ id, r = flashSizeFromJedec id := by
  obtain ⟨-, _, -, _, -, -, h⟩ := Session.runs_bind_ok h
  obtain ⟨-, _, -, _, -, -, h⟩ := Session.runs_bind_ok h
  obtain ⟨-, _, -, _, -, -, h⟩ := Session.runs_bind_ok h
  obtain ⟨-, _, -, _, -, -, h⟩ := Session.runs_bind_ok h
  obtain ⟨id, _, -, _, -, -, h⟩ := Session.runs_bind_ok h
  obtain ⟨id0, _, -, _, -, -, h⟩ := Session.runs_bind_ok h
  obtain ⟨id1, _, -, _, -, -, h⟩ := Session.runs_bind_ok h
  obtain ⟨id2, _, -, _, -, -, h⟩ := Session.runs_bind_ok h
  obtain ⟨-, hr, -⟩ := Session.runs_pure.mp h
  exact ⟨_, Outcome.ok.inj hr⟩

/-- The detected size is added to the start of flash without overflow. -/
theorem add_detected {id : UInt8 × UInt8 × UInt8} {size : UInt32}
    (h : flashSizeFromJedec id = some size) :
    ∃ flashEnd, U32.add flashStart size = some flashEnd ∧
      flashEnd.toNat = flashStart.toNat + size.toNat := by
  obtain ⟨-, hle, -⟩ := flashSizeFromJedec_sectors h
  have hlt : flashStart.toNat + size.toNat < 2 ^ 32 := by
    rw [toNat_flashStart]
    omega
  have hadd : U32.add flashStart size = some (flashStart + size) := if_pos hlt
  exact ⟨_, hadd, U32.add_eq_some_iff.mp hadd⟩

/-- The bound is whole sectors above the start of flash, and at most the
conservative one. -/
structure SectorBound (flashEnd : UInt32) : Prop where
  above : flashStart < flashEnd
  below : flashEnd ≤ Constants.flashEnd
  aligned : 4096 ∣ flashEnd.toNat

theorem sectorBound_flashEnd : SectorBound Constants.flashEnd := by
  exact ⟨by decide, by decide, by decide⟩

theorem sectorBound_detected {id : UInt8 × UInt8 × UInt8} {size flashEnd : UInt32}
    (h : flashSizeFromJedec id = some size)
    (hend : flashEnd.toNat = flashStart.toNat + size.toNat) : SectorBound flashEnd := by
  obtain ⟨hpos, hle, hdvd⟩ := flashSizeFromJedec_sectors h
  refine ⟨?_, ?_, ?_⟩
  · rw [UInt32.lt_iff_toNat_lt]
    omega
  · rw [UInt32.le_iff_toNat_le, hend, toNat_flashStart, toNat_flashEnd]
    omega
  · rw [hend]
    exact Nat.dvd_add (by decide) hdvd

/-- What `resolve_flash_end` returns comes from the detection: the start of
flash plus the size, or the conservative bound. -/
theorem resolveFlashEnd_runs {ε : Type} {d d' : Device} {tr : BusTrace} {o : Outcome ε UInt32}
    (h : (resolveFlashEnd : Session Request Completion Device ε UInt32).Runs d tr o d') :
    ∃ r, Device.detectFlashSize.Runs d tr r d' ∧
      ((r = .panic ∧ o = .panic) ∨ ∃ flashEnd, SectorBound flashEnd ∧ r ≠ .panic ∧
        o = .ok flashEnd ∧ ((∃ e, r = .err e) → flashEnd = Constants.flashEnd)) := by
  rcases Session.runs_bind.mp h with ⟨r, d₁, t₁, t₂, rfl, h₁, h₂⟩ | ⟨e, rfl, h₁⟩ | ⟨rfl, h₁⟩
  · rcases Session.runs_asResult.mp h₁ with ⟨size, hr, hsize⟩ | ⟨e, hr, hfailed⟩ | ⟨hr, -⟩
    · obtain rfl := Outcome.ok.inj hr
      obtain ⟨id, rfl⟩ := detectFlashSize_ok hsize
      cases hid : flashSizeFromJedec id with
      | some size =>
          obtain ⟨flashEnd, hadd, hend⟩ := add_detected hid
          simp only [hid, hadd] at h₂
          obtain ⟨rfl, rfl, rfl⟩ := Session.runs_ofOption_some.mp h₂
          refine ⟨_, by simpa using hsize, .inr ⟨flashEnd, sectorBound_detected hid hend, ?_⟩⟩
          simp
      | none =>
          simp only [hid] at h₂
          obtain ⟨rfl, rfl, rfl⟩ := Session.runs_pure.mp h₂
          exact ⟨_, by simpa using hsize, .inr ⟨_, sectorBound_flashEnd, by simp⟩⟩
    · obtain rfl := Outcome.ok.inj hr
      obtain ⟨rfl, rfl, rfl⟩ := Session.runs_pure.mp h₂
      exact ⟨_, by simpa using hfailed, .inr ⟨_, sectorBound_flashEnd, by simp⟩⟩
    · simp at hr
  · rcases Session.runs_asResult.mp h₁ with ⟨_, hr, -⟩ | ⟨_, hr, -⟩ | ⟨hr, -⟩ <;> simp at hr
  · rcases Session.runs_asResult.mp h₁ with ⟨_, hr, -⟩ | ⟨_, hr, -⟩ | ⟨-, hpanic⟩
    · simp at hr
    · simp at hr
    · exact ⟨_, hpanic, .inl ⟨rfl, rfl⟩⟩

theorem Resolvable.bounds {flashEnd : UInt32} (h : Resolvable flashEnd) : SectorBound flashEnd := by
  obtain ⟨d, tr, d', hrun⟩ := h
  obtain ⟨r, -, ⟨-, ho⟩ | ⟨_, hb, -, ho, -⟩⟩ := resolveFlashEnd_runs hrun
  · simp at ho
  · rwa [Outcome.ok.inj ho]

/-- The conservative bound is returned when the first transfer fails. -/
theorem resolvable_flashEnd : Resolvable Constants.flashEnd := by
  let peer : Request → Completion := fun _ => ⟨.error ⟨0⟩, 0, []⟩
  exact ⟨_, _, _, Session.exec_runs peer resolveFlashEnd ⟨0, 64, 0⟩⟩

/-! ### The run of the detection -/

/-- The steps that run the stub. Its code is written to RAM. -/
def stubSteps : List Step :=
  [.exclusiveAccess, .exitXip, .flashWrite ⟨stubAddr, flashIdStub⟩, .exec stubAddr]

/-- The steps of the detection. -/
def detectSteps : List Step := stubSteps ++ [.flashRead resultAddr 3]

theorem detectSteps_fits : ∀ step ∈ detectSteps, step.Fits := by
  simp [detectSteps, stubSteps, Step.Fits]

theorem reboot_not_mem_detectSteps : .reboot ∉ detectSteps := by
  simp [detectSteps, stubSteps]

/-- What the detection makes of the bytes it read. -/
def decodeId (id : List UInt8) : Host (Option UInt32) := do
  let id0 ← Session.ofOption id[0]?
  let id1 ← Session.ofOption id[1]?
  let id2 ← Session.ofOption id[2]?
  return flashSizeFromJedec (id0, id1, id2)

theorem decodeId_runs {id : List UInt8} {d d' : Device} {tr : BusTrace}
    {r : Outcome DeviceError (Option UInt32)} (h : (decodeId id).Runs d tr r d') :
    tr = [] ∧ d' = d ∧
      ((∃ id0 id1 id2 rest, id = id0 :: id1 :: id2 :: rest ∧
          r = .ok (flashSizeFromJedec (id0, id1, id2))) ∨ (r = .panic ∧ id.length < 3)) := by
  unfold decodeId at h
  match id with
  | [] =>
      obtain ⟨rfl, rfl, rfl⟩ := Session.runs_ofOutcome.mp h
      exact ⟨rfl, rfl, .inr ⟨rfl, by simp⟩⟩
  | [_] =>
      obtain ⟨rfl, rfl, rfl⟩ := Session.runs_ofOutcome.mp h
      exact ⟨rfl, rfl, .inr ⟨rfl, by simp⟩⟩
  | [_, _] =>
      obtain ⟨rfl, rfl, rfl⟩ := Session.runs_ofOutcome.mp h
      exact ⟨rfl, rfl, .inr ⟨rfl, by simp⟩⟩
  | _ :: _ :: _ :: _ =>
      obtain ⟨rfl, rfl, rfl⟩ := Session.runs_pure.mp h
      exact ⟨rfl, rfl, .inl ⟨_, _, _, _, rfl, rfl⟩⟩

/-- The detection runs the stub and decodes what it reads. -/
theorem run_detectFlashSize :
    Loader.run Device.detectFlashSize =
      ((forM stubSteps Step.perform : Loader PUnit) >>= fun _ =>
        Loader.run (Device.flashRead resultAddr 3) >>= fun id => Loader.run (decodeId id)) := by
  simp only [stubSteps, Loader.run, Device.detectFlashSize, Session.mapErr_bind, List.forM_cons,
    List.forM_nil, bind_assoc, pure_bind, Step.perform, decodeId]

/-- The detection makes its steps. It ends with the one that fails, or reads the id
and decodes it. -/
theorem detectFlashSize_split {d d' : Device} {tr : BusTrace}
    {r : Outcome DeviceError (Option UInt32)} (h : Device.detectFlashSize.Runs d tr r d') :
    ∃ o, LoopRuns Step.perform detectSteps d tr o d' ∧
      ((o ≠ .ok () ∧ o = (r.mapErr .device).void) ∨
        (o = .ok () ∧ ∃ d₁ t₁ t₂ id, tr = t₁ ++ t₂ ∧
          LoopRuns Step.perform stubSteps d t₁ (.ok ()) d₁ ∧
          (Device.flashRead resultAddr 3).Runs d₁ t₂ (.ok id) d' ∧
          (decodeId id).Runs d' [] r d')) := by
  have hrun : (Loader.run Device.detectFlashSize).Runs d tr (r.mapErr .device) d' :=
    Session.runs_mapErr.mpr ⟨r, rfl, h⟩
  rw [run_detectFlashSize] at hrun
  rcases Session.runs_bind.mp hrun with ⟨⟨⟩, d₁, t₁, t₂, rfl, h₁, h₂⟩ | ⟨e, he, h₁⟩ | ⟨hp, h₁⟩
  · have hstub := Session.runs_forM.mp h₁
    have hread : ∀ {t : BusTrace} {o : Outcome LoadError (List UInt8)} {d₂ : Device},
        (Loader.run (Device.flashRead resultAddr 3)).Runs d₁ t o d₂ →
        (Step.flashRead resultAddr 3).perform.Runs d₁ t o.void d₂ := Session.runs_void
    rcases Session.runs_bind.mp h₂ with ⟨id, d₂, t₃, t₄, rfl, h₃, h₄⟩ | ⟨e, he, h₃⟩ | ⟨hp, h₃⟩
    · obtain ⟨r', hr', hdecode⟩ := Session.runs_mapErr.mp h₄
      obtain ⟨o', ho', h₃'⟩ := Session.runs_mapErr.mp h₃
      obtain rfl := Outcome.mapErr_eq_ok.mp ho'.symm
      obtain ⟨rfl, rfl, -⟩ := decodeId_runs hdecode
      obtain rfl : r = r' := by
        cases r' with
        | ok a => exact Outcome.mapErr_eq_ok.mp hr'
        | panic => exact Outcome.mapErr_eq_panic.mp hr'
        | err e =>
            obtain ⟨-, -, ⟨_, _, _, _, -, heq⟩ | ⟨heq, -⟩⟩ := decodeId_runs hdecode
            · simp at heq
            · simp at heq
      refine ⟨.ok (), by simpa [detectSteps] using hstub.append (.cons (hread h₃) .nil), .inr ?_⟩
      exact ⟨rfl, d₁, t₁, t₃, id, by rw [List.append_nil], hstub, h₃', hdecode⟩
    · refine ⟨.err e, hstub.append (.stop (hread h₃) (by simp)), .inl ⟨by simp, ?_⟩⟩
      rw [he]
      rfl
    · refine ⟨.panic, hstub.append (.stop (hread h₃) (by simp)), .inl ⟨by simp, ?_⟩⟩
      rw [hp]
      rfl
  · refine ⟨.err e, (Session.runs_forM.mp h₁).append_right (by simp), .inl ⟨by simp, ?_⟩⟩
    rw [he]
    rfl
  · refine ⟨.panic, (Session.runs_forM.mp h₁).append_right (by simp), .inl ⟨by simp, ?_⟩⟩
    rw [hp]
    rfl

/-- The detection fails only with one of its steps, unless it panics over a read that
was too short. -/
theorem detectFlashSize_runs {d d' : Device} {tr : BusTrace}
    {r : Outcome DeviceError (Option UInt32)} (h : Device.detectFlashSize.Runs d tr r d') :
    ∃ o, LoopRuns Step.perform detectSteps d tr o d' ∧
      ((o ≠ .ok () ∧ o = (r.mapErr .device).void) ∨ (o = .ok () ∧ ∃ size, r = .ok size) ∨
        (o = .ok () ∧ r = .panic ∧
          ∃ d₁ c, (Request.inData d₁ 3 .readData commandTimeout, c) ∈ tr ∧
            Succeeded (Request.inData d₁ 3 .readData commandTimeout, c) ∧
            c.buffer.length < 3)) := by
  obtain ⟨o, hloop, hfailed | ⟨ho, d₁, t₁, t₂, id, rfl, -, hread, hdecode⟩⟩ :=
    detectFlashSize_split h
  · exact ⟨o, hloop, .inl hfailed⟩
  · refine ⟨o, hloop, .inr ?_⟩
    obtain ⟨-, -, ⟨_, _, _, _, -, rfl⟩ | ⟨rfl, hshort⟩⟩ := decodeId_runs hdecode
    · exact .inl ⟨ho, _, rfl⟩
    · obtain ⟨c₁, c₂, c₃, rfl, hc₂, rfl⟩ := Device.flashRead_runs_ok hread
      exact .inr ⟨ho, rfl, d₁.bump, c₂, by simp, hc₂, by simpa using hshort⟩

/-- The detection does not panic over a conforming device. -/
theorem detectFlashSize_ne_panic {d d' : Device} {tr : BusTrace}
    {r : Outcome DeviceError (Option UInt32)} (hmax : 0 < d.inMaxPacket)
    (hconf : ∀ ev ∈ tr, Conforming ev) (h : Device.detectFlashSize.Runs d tr r d') :
    r ≠ .panic ∧ d'.inMaxPacket = d.inMaxPacket := by
  obtain ⟨o, hloop, hcase⟩ := detectFlashSize_runs h
  obtain ⟨hpanic, hd⟩ := steps_ne_panic hloop detectSteps_fits hmax
  refine ⟨?_, hd⟩
  intro heq
  subst heq
  rcases hcase with ⟨-, ho⟩ | ⟨-, size, hr⟩ | ⟨-, -, d₁, c, hmem, hs, hshort⟩
  · exact hpanic ho
  · simp at hr
  · exact absurd (length_of_succeeded_inData hs (hconf _ hmem)) (by omega)

end PicotoolRs
