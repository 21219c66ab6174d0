import PicotoolRs.Bootsel.Chip
import PicotoolRs.Bootsel.Run
import PicotoolRs.Run.Order

/-!
# PicotoolRs.Bootsel.Complete

The `load` command on a device without faults.

The detection runs the stub on the device and finds the size of the flash
(`detection_obeyed`), so that the bound is that of the chip. From there on the
parser decides: an image that it accepts is in flash in the end, and the device
reboots; a file that it rejects leaves flash as it was.
-/

namespace PicotoolRs

open Lib Constants

/-- The bound for a flash chip of this id. -/
def boundFor (jedec : UInt8 × UInt8 × UInt8) : UInt32 :=
  match flashSizeFromJedec jedec with
  | some size => flashStart + size
  | none => flashEnd

theorem add_boundFor {jedec : UInt8 × UInt8 × UInt8} {size : UInt32}
    (h : flashSizeFromJedec jedec = some size) :
    U32.add flashStart size = some (boundFor jedec) := by
  obtain ⟨-, hle, -⟩ := flashSizeFromJedec_sectors h
  have hlt : flashStart.toNat + size.toNat < 2 ^ 32 := by
    rw [toNat_flashStart]
    omega
  rw [boundFor, h]
  exact if_pos hlt

theorem sectorBound_boundFor (jedec : UInt8 × UInt8 × UInt8) : SectorBound (boundFor jedec) := by
  cases h : flashSizeFromJedec jedec with
  | some size => exact sectorBound_detected h (U32.add_eq_some_iff.mp (add_boundFor h))
  | none =>
      rw [boundFor, h]
      exact sectorBound_flashEnd

section Complete

variable {board : Board} {jedec : UInt8 × UInt8 × UInt8} {d d' : Device} {tr : BusTrace}
  {b b' : Bootsel} {m : Nor.Memory}

/-- A device without faults reports as many bytes as it sends. -/
theorem conforming_of_serves (hserves : Peer.Serves board.Obeys b tr b') :
    ∀ ev ∈ tr, Conforming ev := by
  induction hserves with
  | nil => simp
  | cons hobey _ ih =>
      refine List.forall_mem_cons.mpr ⟨fun hin hok => ?_, ih⟩
      cases hobey with
      | served hserve =>
          generalize ht : Request.transfer _ = t at hserve hin
          cases hserve <;> simp_all [Transfer.isIn]
      | stalled _ => simp [Except.isOk, Except.toBool] at hok

/-! ### The detection -/

/-- The detection reads the id of the flash chip. -/
theorem detection_obeyed (hboard : board.Working) (hid : board.Identifies jedec)
    {r : Outcome DeviceError (Option UInt32)} (h : Device.detectFlashSize.Runs d tr r d')
    (hserves : Peer.Serves board.Obeys b tr b') (hw : Waiting m b) (hmax : 0 < d.inMaxPacket) :
    r = .ok (flashSizeFromJedec jedec) ∧ Waiting m b' ∧ 0 < d'.inMaxPacket := by
  obtain ⟨hpanic, hd⟩ := detectFlashSize_ne_panic hmax (conforming_of_serves hserves) h
  obtain ⟨o, hloop, hcase⟩ := detectFlashSize_runs h
  have hfits : ∀ step ∈ stubSteps, step.Fits := fun step hstep =>
    detectSteps_fits step (List.mem_append_left _ hstep)
  rcases hloop.split_append with ⟨d₁, t₁, t₂, rfl, hstub, hread⟩ | ⟨ho, hstub⟩
  · obtain ⟨b₁, hserves₁, hserves₂⟩ := Peer.serves_append.mp hserves
    obtain ⟨-, -, hw₁, hresult⟩ := through_stubSteps hboard hid m hmax hw hstub hserves₁
    have hd₁ := (steps_ne_panic hstub hfits hmax).2
    obtain ⟨rfl, hpassed, hw'⟩ :=
      through_readResult hboard.local m (hd₁ ▸ hmax) hw₁ hread hserves₂
    refine ⟨?_, hw', hd ▸ hmax⟩
    -- nothing is received before the result
    have hnone : received t₁ = [] :=
      steps_received hstub hfits (by simp [stubSteps, Step.cmd, Command.dataPhase])
    have hid : received t₂ = idBytes jedec := by
      cases hpassed with
      | cons hone _ hnil =>
          cases hnil
          rw [List.append_nil, hone.received _ _ rfl]
          exact hresult
    rcases hcase with ⟨ho, -⟩ | ⟨-, size, rfl⟩ | ⟨-, rfl, -⟩
    · exact absurd rfl ho
    · have hall : received (t₁ ++ t₂) = idBytes jedec := by
        rw [received, List.flatMap_append, ← received, ← received, hnone, hid, List.nil_append]
      have hsize := (detectFlashSize_decodes d _ _ _).sound _ _ _ h hall
      rw [hsize.1, flashSizeFromJedec_eq]
    · exact absurd rfl hpanic
  · exact absurd (through_stubSteps hboard hid m hmax hw hstub hserves).1 ho

/-- The bound is that of the chip. -/
theorem resolveFlashEnd_obeyed {ε : Type} (hboard : board.Working) (hid : board.Identifies jedec)
    {o : Outcome ε UInt32}
    (h : (resolveFlashEnd : Session Request Completion Device ε UInt32).Runs d tr o d')
    (hserves : Peer.Serves board.Obeys b tr b') (hw : Waiting m b) (hmax : 0 < d.inMaxPacket) :
    o = .ok (boundFor jedec) ∧ Waiting m b' ∧ 0 < d'.inMaxPacket := by
  have hdetect : ∀ {r : Outcome DeviceError (Option UInt32)} {t : BusTrace} {d₁ : Device}
      {b₁ : Bootsel}, Device.detectFlashSize.Runs d t r d₁ → Peer.Serves board.Obeys b t b₁ →
      r = .ok (flashSizeFromJedec jedec) ∧ Waiting m b₁ ∧ 0 < d₁.inMaxPacket :=
    fun hrun hserves => detection_obeyed hboard hid hrun hserves hw hmax
  rcases Session.runs_bind.mp h with ⟨r, d₁, t₁, t₂, rfl, h₁, h₂⟩ | ⟨e, rfl, h₁⟩ | ⟨rfl, h₁⟩
  · obtain ⟨b₁, hserves₁, hserves₂⟩ := Peer.serves_append.mp hserves
    rcases Session.runs_asResult.mp h₁ with ⟨size, hr, hrun⟩ | ⟨e, -, hrun⟩ | ⟨-, hrun⟩
    · obtain rfl := Outcome.ok.inj hr
      obtain ⟨hsize, hw₁, hd₁⟩ := hdetect hrun hserves₁
      obtain rfl := Outcome.ok.inj hsize
      have hlast : t₂ = [] ∧ o = .ok (boundFor jedec) ∧ d' = d₁ := by
        cases hdecode : flashSizeFromJedec jedec with
        | some size =>
            simp only [hdecode, add_boundFor hdecode] at h₂
            exact Session.runs_ofOption_some.mp h₂
        | none =>
            simp only [hdecode] at h₂
            rw [boundFor, hdecode]
            exact Session.runs_pure.mp h₂
      obtain ⟨rfl, rfl, rfl⟩ := hlast
      obtain rfl := Peer.serves_nil.mp hserves₂
      exact ⟨rfl, hw₁, hd₁⟩
    · exact absurd (hdetect hrun hserves₁).1 (by simp)
    · exact absurd (hdetect hrun hserves₁).1 (by simp)
  · rcases Session.runs_asResult.mp h₁ with ⟨_, hr, -⟩ | ⟨_, hr, -⟩ | ⟨hr, -⟩ <;> simp at hr
  · rcases Session.runs_asResult.mp h₁ with ⟨_, hr, -⟩ | ⟨_, hr, -⟩ | ⟨-, hrun⟩
    · simp at hr
    · simp at hr
    · exact absurd (hdetect hrun hserves).1 (by simp)

/-! ### After opening -/

/-- What is left of the command, once the device is open: the parser decides. -/
theorem flashFile_obeyed (hboard : board.Working) (hid : board.Identifies jedec) {path : Str}
    {bytes : List UInt8} {verify : Bool} {o : Outcome RunError Unit}
    (h : (flashFile path bytes verify).Runs d tr o d')
    (hserves : Peer.Serves board.Obeys b tr b') (hw : Waiting m b) (hmax : 0 < d.inMaxPacket) :
    (∃ e, parse bytes (boundFor jedec) = .err e ∧ o = .err (.parsingFile path e) ∧
        Waiting m b') ∨
      ∃ segs t₂ d₁ b₁ o₂, parse bytes (boundFor jedec) = .ok segs ∧
        (load segs verify).Runs d₁ t₂ o₂ d' ∧ o = o₂.mapErr .flashing ∧
        Peer.Serves board.Obeys b₁ t₂ b' ∧ Waiting m b₁ ∧ 0 < d₁.inMaxPacket := by
  rcases Session.runs_bind.mp h with ⟨bound, d₁, t₁, t₂, rfl, h₁, h₂⟩ | ⟨e, rfl, h₁⟩ | ⟨rfl, h₁⟩
  · obtain ⟨b₁, hserves₁, hserves₂⟩ := Peer.serves_append.mp hserves
    obtain ⟨hbound, hw₁, hd₁⟩ := resolveFlashEnd_obeyed hboard hid h₁ hserves₁ hw hmax
    obtain rfl := Outcome.ok.inj hbound
    cases hparse : parse bytes (boundFor jedec) with
    | panic => exact absurd hparse (parse_ne_panic bytes _)
    | err e =>
        rw [hparse] at h₂
        obtain ⟨rfl, rfl, -⟩ := Session.runs_ofOutcome.mp h₂
        obtain rfl := Peer.serves_nil.mp hserves₂
        exact .inl ⟨e, rfl, rfl, hw₁⟩
    | ok segs =>
        rw [hparse] at h₂
        obtain ⟨o₂, rfl, hload⟩ := Session.runs_mapErr.mp
          (show ((load segs verify).mapErr RunError.flashing).Runs d₁ t₂ o d' from h₂)
        exact .inr ⟨segs, t₂, d₁, b₁, o₂, rfl, hload, rfl, hserves₂, hw₁, hd₁⟩
  · exact absurd (resolveFlashEnd_obeyed hboard hid h₁ hserves hw hmax).1 (by simp)
  · exact absurd (resolveFlashEnd_obeyed hboard hid h₁ hserves hw hmax).1 (by simp)

/-- An image that fits the chip is loaded. -/
theorem flashFile_loads (hboard : board.Working) (hid : board.Identifies jedec) {path : Str}
    {bytes : List UInt8} {verify : Bool} {bound : UInt32} {segs : List Segment}
    (hb : SectorBound bound) (hle : bound ≤ boundFor jedec)
    (hcap : bound.toNat ≤ flashStart.toNat + board.capacity) (hparse : parse bytes bound = .ok segs)
    {o : Outcome RunError Unit} (h : (flashFile path bytes verify).Runs d tr o d')
    (hserves : Peer.Serves board.Obeys b tr b') (hw : Waiting m b) (hmax : 0 < d.inMaxPacket) :
    o = .ok () ∧ b'.rebooting = true ∧ Flashed segs m b'.mem := by
  rcases flashFile_obeyed hboard hid h hserves hw hmax with
    ⟨e, herr, -, -⟩ | ⟨segs', t₂, d₁, b₁, o₂, hok, hload, rfl, hserves₂, hw₁, hd₁⟩
  · simp [parse_keeps hle hparse] at herr
  · obtain rfl := Outcome.ok.inj (hok.symm.trans (parse_keeps hle hparse))
    have hrep := parse_represents hparse
    obtain ⟨erases, hplan, hloop⟩ := load_runs hrep hb hload
    obtain ⟨rfl, -, hreboot, hflashed⟩ :=
      through_loadPlan hrep hcap hboard hb hplan m hd₁ hw₁ hloop hserves₂
    exact ⟨rfl, hreboot, hflashed⟩

/-! ### The command -/

/-- The reset always succeeds. -/
theorem Board.Obeys.reset {c : Completion} (h : board.Obeys b (.reset d) c b') :
    Succeeded (.reset d, c) ∧ b' = { b with stage := .idle } := by
  have hserve := h.serve ⟨_, _, .reset⟩
  have hc : Succeeded (.reset d, c) := any_passes rfl hserve
  exact ⟨hc, h.reacts.reset.2 hc⟩

/-- The command gets as far as an open device: it is not handed over, the file can
be read, and there is a device. -/
structure Starts (w : World) (args : LoadArgs) (bytes : List UInt8) (d : Device) : Prop where
  here : args.device = none
  file : w.readFile args.file = .ok bytes
  found : Device.found w (!args.anyDevice) (resolveFd w args.fd) = .ok d
  endpoint : 0 < d.inMaxPacket

variable {w : World} {argv : List Str} {args : LoadArgs} {bytes : List UInt8} {s s' : Unit}
  {o : Outcome RunError Unit}

theorem runLoad_obeyed (hstarts : Starts w args bytes d)
    (h : (runLoad w argv args).Runs s tr o s') (hserves : Peer.Serves board.Obeys b tr b') :
    ∃ t d', (flashFile args.file bytes args.verify).Runs d t o d' ∧
      Peer.Serves board.Obeys { b with stage := .idle } t b' := by
  cases runLoad_runs_iff.mp h with
  | reexec hpath => simp [hstarts.here] at hpath
  | unread _ herr => simp [hstarts.file] at herr
  | unopened _ _ hopen hno =>
      cases hopen with
      | failed hnone => exact absurd hstarts.found (hnone d)
      | opened _ _ => exact absurd rfl (hno _)
      | refused _ hfail =>
          obtain ⟨b₁, hobey, -⟩ := Peer.serves_cons.mp hserves
          simp [show _ = none from hobey.reset.1] at hfail
  | flashing _ hbytes hfound _ hflash =>
      obtain rfl := Except.ok.inj (hstarts.file.symm.trans hbytes)
      obtain rfl := Outcome.ok.inj (hstarts.found.symm.trans hfound)
      obtain ⟨b₁, hobey, hserves⟩ := Peer.serves_cons.mp hserves
      obtain rfl := hobey.reset.2
      exact ⟨_, _, hflash, hserves⟩

/-- An image that fits the chip is loaded. -/
theorem runLoad_loads (hboard : board.Working) (hid : board.Identifies jedec)
    (hstarts : Starts w args bytes d) (hrunning : b.rebooting = false) {bound : UInt32}
    {segs : List Segment} (hb : SectorBound bound) (hle : bound ≤ boundFor jedec)
    (hcap : bound.toNat ≤ flashStart.toNat + board.capacity) (hparse : parse bytes bound = .ok segs)
    (h : (runLoad w argv args).Runs s tr o s') (hserves : Peer.Serves board.Obeys b tr b') :
    o = .ok () ∧ b'.rebooting = true ∧ Flashed segs b.mem b'.mem := by
  obtain ⟨t, d', hflash, hserves⟩ := runLoad_obeyed hstarts h hserves
  exact flashFile_loads hboard hid hb hle hcap hparse hflash hserves
    ⟨rfl, hrunning, fun _ _ => rfl⟩ hstarts.endpoint

/-- A device without faults takes the command to an end. -/
theorem runLoad_ends (board : Board) (w : World) (argv : List Str) (args : LoadArgs)
    (b : Bootsel) :
    ∃ tr o b', (runLoad w argv args).Runs () tr o () ∧ Peer.Serves board.Obeys b tr b' := by
  obtain ⟨tr, ⟨o, _⟩, b', hrun, hserves⟩ :=
    Prog.exists_run board.obeys_total (runLoad w argv args ()) b
  exact ⟨tr, o, b', hrun, hserves⟩

end Complete

/-! ### Over a flash chip -/

section Chip

variable {w : World} {argv : List Str} {args : LoadArgs} {bytes : List UInt8} {d : Device}
  {jedec : UInt8 × UInt8 × UInt8} {capacity : Nat} {b : Bootsel} {bound : UInt32}
  {segs : List Segment}

/-- The arguments of a load of `file` with `--verify`. -/
def verifiedLoad (file : Str) : LoadArgs := ⟨file, true, false, none, none⟩

theorem starts_oneDevice (file : Str) (bytes : List UInt8) :
    Starts (oneDevice bytes) (verifiedLoad file) bytes ⟨0, 64, 0⟩ := by
  exact ⟨rfl, rfl, rfl, by decide⟩

/-- With a device that is not rebooting and makes no faults, and an image that
fits its flash chip, the command comes to an end, and whenever it does, it has
succeeded, the image is in flash and the device reboots. The stub runs on the
device to find the size of the chip. -/
theorem runLoad_flashes (hstarts : Starts w args bytes d) (hrunning : b.rebooting = false)
    (hb : SectorBound bound) (hle : bound ≤ boundFor jedec)
    (hcap : bound.toNat ≤ flashStart.toNat + capacity) (hparse : parse bytes bound = .ok segs) :
    (∃ tr o b', (runLoad w argv args).Runs () tr o () ∧
      Peer.Serves (chip jedec capacity).Obeys b tr b') ∧
    ∀ tr o b', (runLoad w argv args).Runs () tr o () →
      Peer.Serves (chip jedec capacity).Obeys b tr b' →
        o = .ok () ∧ b'.rebooting = true ∧ Flashed segs b.mem b'.mem := by
  refine ⟨runLoad_ends _ w argv args b, fun tr o b' h hserves => ?_⟩
  exact runLoad_loads chip_working chip_identifies hstarts hrunning hb hle hcap hparse h hserves

/-- A device left in the middle of something, with flash of 2 MiB. -/
theorem runLoad_flashes_oneByte :
    let board := chip (0xef, 0x40, 0x15) 0x200000
    let b : Bootsel := ⟨.takesAck, true, false, fun _ => 0⟩
    ∃ tr b', (runLoad (oneDevice oneByteFile) [] (verifiedLoad [])).Runs () tr (.ok ()) () ∧
      Peer.Serves board.Obeys b tr b' ∧ b'.rebooting = true ∧
      Flashed [⟨flashStart, [0]⟩] b.mem b'.mem := by
  intro board b
  obtain ⟨tr, o, b', hrun, hserves⟩ :=
    runLoad_ends board (oneDevice oneByteFile) [] (verifiedLoad []) b
  have hbound := sectorBound_boundFor (0xef, 0x40, 0x15)
  have hcap : (boundFor (0xef, 0x40, 0x15)).toNat ≤ flashStart.toNat + 0x200000 := by decide
  have hparse : parse oneByteFile (boundFor (0xef, 0x40, 0x15)) = .ok [⟨flashStart, [0]⟩] := by
    decide +kernel
  obtain ⟨rfl, hreboot, hflashed⟩ := (runLoad_flashes (starts_oneDevice [] oneByteFile) rfl
    hbound le_rfl hcap hparse).2 tr o b' hrun hserves
  exact ⟨tr, b', hrun, hserves, hreboot, hflashed⟩

/-- With a file that is rejected at the bound of the flash chip, the command ends
with the parser's error, and the device waits for packets with its flash as it
was. -/
theorem runLoad_refuses (hstarts : Starts w args bytes d) (hrunning : b.rebooting = false)
    {e : Uf2Error} (hparse : parse bytes (boundFor jedec) = .err e) :
    (∃ tr o b', (runLoad w argv args).Runs () tr o () ∧
      Peer.Serves (chip jedec capacity).Obeys b tr b') ∧
    ∀ tr o b', (runLoad w argv args).Runs () tr o () →
      Peer.Serves (chip jedec capacity).Obeys b tr b' →
        o = .err (.parsingFile args.file e) ∧ Waiting b.mem b' := by
  refine ⟨runLoad_ends _ w argv args b, fun tr o b' h hserves => ?_⟩
  obtain ⟨t, d', hflash, hserves⟩ := runLoad_obeyed hstarts h hserves
  rcases flashFile_obeyed chip_working chip_identifies hflash hserves
    ⟨rfl, hrunning, fun _ _ => rfl⟩ hstarts.endpoint with
      ⟨e', herr, rfl, hw⟩ | ⟨segs', _, _, _, _, hok, -⟩
  · obtain rfl := Outcome.err.inj (hparse.symm.trans herr)
    exact ⟨rfl, hw⟩
  · simp [hparse] at hok

/-- A block above the end of flash of 64 KiB. -/
theorem runLoad_refuses_above :
    let bytes := fileBytes
      [.build uf2FlagFamilyIdPresent (flashStart + 0x10000) rp2040FamilyId [0] (by decide)]
    let board := chip (0xef, 0x40, 0x10) 0x10000
    let b : Bootsel := ⟨.idle, true, false, fun _ => 0⟩
    ∃ tr b', (runLoad (oneDevice bytes) [] (verifiedLoad [])).Runs () tr
        (.err (.parsingFile [] (.addressOutOfRange 0 (flashStart + 0x10000) 1
          (flashStart + 0x10000)))) () ∧
      Peer.Serves board.Obeys b tr b' ∧ Waiting b.mem b' := by
  intro bytes board b
  obtain ⟨tr, o, b', hrun, hserves⟩ :=
    runLoad_ends board (oneDevice bytes) [] (verifiedLoad []) b
  have hparse : parse bytes (boundFor (0xef, 0x40, 0x10)) =
      .err (.addressOutOfRange 0 (flashStart + 0x10000) 1 (flashStart + 0x10000)) := by
    decide +kernel
  obtain ⟨rfl, hw⟩ :=
    (runLoad_refuses (starts_oneDevice [] bytes) rfl hparse).2 tr o b' hrun hserves
  exact ⟨tr, b', hrun, hserves, hw⟩

end Chip

end PicotoolRs
