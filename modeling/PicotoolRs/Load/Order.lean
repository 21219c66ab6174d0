import PicotoolRs.Load.Plan

/-!
# PicotoolRs.Load.Order

The order of a load.

Whatever the device does, the packets of a load are those of its plan, in order,
and each one is sent only if everything before it went through
(`packets_in_order`). `LoadOrder` says what this means for each kind of command,
and what an error says about the trace.
-/

namespace PicotoolRs

open Lib Constants

/-! ### What is over -/

/-- Whenever the packet of `cmd` is sent, the exchanges that are over satisfy
`P`. -/
def SentAfter (tr : BusTrace) (cmd : Command) (P : List Exchange → Prop) : Prop :=
  ∀ pre ev post, tr = pre ++ ev :: post → ev.1.IsPacketOf cmd → P (Link.start.after pre).finished

/-- Exclusive access was taken and XIP mode left. -/
def Prepared (fin : List Exchange) : Prop :=
  (∃ x ∈ fin, x.cmd = .exclusiveAccess .exclusive) ∧ ∃ x ∈ fin, x.cmd = .exitXip

/-- Every range was erased. -/
def Erased (erases : List (UInt32 × UInt32)) (fin : List Exchange) : Prop :=
  ∀ e ∈ erases, ∃ x ∈ fin, x.cmd = .flashErase e.1 e.2

/-- Every piece was written. -/
def Written (segs : List Segment) (fin : List Exchange) : Prop :=
  ∀ p ∈ pieces segs, ∃ x ∈ fin, x.cmd = .write p.addr (U32.ofUsize p.data.length) ∧ x.sent = p.data

/-- Every piece was read back as it was written. -/
def ReadBackAll (segs : List Segment) (fin : List Exchange) : Prop :=
  ∀ p ∈ pieces segs, ∃ x ∈ fin,
    x.cmd = .read p.addr (U32.ofUsize p.data.length) ∧ x.received = p.data

/-- No read of a piece returned anything else. -/
def NoMismatch (segs : List Segment) (fin : List Exchange) : Prop :=
  ∀ p ∈ pieces segs, ∀ x ∈ fin,
    x.cmd = .read p.addr (U32.ofUsize p.data.length) → x.received = p.data

/-- The order of a load that ends with `o`. -/
structure LoadOrder (erases : List (UInt32 × UInt32)) (segs : List Segment) (verify : Bool)
    (tr : BusTrace) (o : Outcome LoadError Unit) : Prop where
  /-- Nothing is erased before the device is prepared. -/
  erase : ∀ addr size, SentAfter tr (.flashErase addr size) Prepared
  /-- Nothing is written before all erases are over. -/
  write : ∀ addr len, SentAfter tr (.write addr len) fun fin => Prepared fin ∧ Erased erases fin
  /-- Nothing is read before all writes are over. -/
  read : ∀ addr len, SentAfter tr (.read addr len) (Written segs)
  /-- The reboot is sent after everything else. -/
  reboot : ∀ pc sp delayMs, SentAfter tr (.reboot pc sp delayMs) fun fin =>
    Erased erases fin ∧ Written segs fin ∧ (verify = true → ReadBackAll segs fin)
  /-- No packet follows the reboot. -/
  last : ∀ pre ev post, tr = pre ++ ev :: post →
    (∃ pc sp delayMs, ev.1.IsPacketOf (.reboot pc sp delayMs)) → ∀ ev' ∈ post, ¬ ev'.1.IsPacket
  /-- No packet follows a failed transfer or a mismatch. -/
  stops : ∀ pre ev post, tr = pre ++ ev :: post → ev.1.IsPacket →
    (∀ ev' ∈ pre, Succeeded ev') ∧ NoMismatch segs (Link.start.after pre).finished
  /-- A failed transfer is what the load reports, unless it is the
  acknowledgement of the reboot, which a device that reboots need not send. -/
  failed : ∀ ev ∈ tr, ∀ e, ev.1.failure ev.2 = some e →
    o = .err (.device e) ∨ (ev.1.op = .rebootAck ∧ o = .ok ())
  /-- A mismatch is what the load reports. -/
  mismatch : ∀ p ∈ pieces segs, ∀ x ∈ (Link.start.after tr).finished,
    x.cmd = .read p.addr (U32.ofUsize p.data.length) → x.received ≠ p.data →
    o = .err (.verifyMismatch p.addr)

/-! ### The steps before a step -/

/-- An initial part without the element lies before it. -/
theorem prefix_of_not_mem {α : Type} {done rest as : List α} {x : α}
    (h : as <+: done ++ x :: rest) (hx : x ∉ as) : as <+: done := by
  obtain ⟨bs, h⟩ := h
  rcases List.append_eq_append_iff.mp h with ⟨c, rfl, -⟩ | ⟨c, rfl, hc⟩
  · exact List.prefix_append _ _
  · cases c with
    | nil => simp
    | cons y c =>
        obtain ⟨rfl, -⟩ := List.cons.inj hc
        simp at hx

/-- Each element of one list is related to some element of the other. -/
theorem exists_of_mem_forall₂ {α β : Type} {R : α → β → Prop} {as : List α} {bs : List β} {a : α}
    (h : List.Forall₂ R as bs) (ha : a ∈ as) : ∃ b ∈ bs, R a b := by
  induction h with
  | nil => simp at ha
  | cons hab _ ih =>
      rcases List.mem_cons.mp ha with rfl | ha
      · exact ⟨_, List.mem_cons_self .., hab⟩
      · obtain ⟨b, hb, hr⟩ := ih ha
        exact ⟨b, List.mem_cons_of_mem _ hb, hr⟩

section Made

variable {steps : List Step} {xs : List Exchange} (h : List.Forall₂ Step.Made steps xs)

include h

theorem prepared_of_made (hpre : [.exclusiveAccess, .exitXip] <+: steps) : Prepared xs := by
  obtain ⟨x, hx, hmade⟩ := exists_of_mem_forall₂ h (hpre.subset (a := .exclusiveAccess) (by simp))
  obtain ⟨y, hy, hmade'⟩ := exists_of_mem_forall₂ h (hpre.subset (a := .exitXip) (by simp))
  exact ⟨⟨x, hx, hmade.cmd⟩, y, hy, hmade'.cmd⟩

theorem erased_of_made {erases : List (UInt32 × UInt32)}
    (hpre : ∀ e ∈ erases, .flashErase e.1 e.2 ∈ steps) : Erased erases xs := by
  intro e he
  obtain ⟨x, hx, hmade⟩ := exists_of_mem_forall₂ h (hpre e he)
  exact ⟨x, hx, hmade.cmd⟩

theorem written_of_made {segs : List Segment} (hpre : ∀ p ∈ pieces segs, .flashWrite p ∈ steps) :
    Written segs xs := by
  intro p hp
  obtain ⟨x, hx, hmade⟩ := exists_of_mem_forall₂ h (hpre p hp)
  exact ⟨x, hx, hmade.cmd, hmade.sent⟩

theorem readBackAll_of_made {segs : List Segment} (hpre : ∀ p ∈ pieces segs, .compare p ∈ steps) :
    ReadBackAll segs xs := by
  intro p hp
  obtain ⟨x, hx, hmade⟩ := exists_of_mem_forall₂ h (hpre p hp)
  exact ⟨x, hx, hmade.cmd, hmade.agrees p rfl⟩

end Made

/-! ### The order -/

/-- Steps of a load that went through leave no mismatch. -/
theorem noMismatch_of_plan {erases : List (UInt32 × UInt32)} {segs : List Segment} {verify : Bool}
    {done : List Step} {xs : List Exchange} (hfits : FitsAddressSpace segs)
    (hgap : segs.Pairwise fun s t => s.toRun.stop < t.addr.toNat)
    (hpre : done <+: loadPlan erases segs verify) (h : List.Forall₂ Step.Made done xs) :
    NoMismatch segs xs := by
  intro p hp x hx hcmd
  obtain ⟨step, hstep, hmade⟩ := exists_of_mem_forall₂ h.flip hx
  have hread : step.cmd = .read p.addr (U32.ofUsize p.data.length) := hmade.cmd.symm.trans hcmd
  cases loadStep_of_mem (hpre.subset hstep) with
  | @compare q hq =>
      -- the only read is the comparison, and its piece is the only one at its address
      simp only [Step.cmd, Command.read.injEq] at hread
      obtain rfl := pieces_eq_of_addr hfits hgap hq hp hread.1
      exact hmade.agrees q rfl
  | _ => simp [Step.cmd] at hread

/-- The reboot is the last step. -/
theorem rest_of_reboot {erases : List (UInt32 × UInt32)} {segs : List Segment} {verify : Bool}
    {done rest : List Step} (h : loadPlan erases segs verify = done ++ .reboot :: rest) :
    rest = [] := by
  have hlast := loadPlan_dropLast erases segs verify
  rw [h] at hlast
  cases rest with
  | nil => rfl
  | cons s rest => simp [List.dropLast_append_of_ne_nil, List.dropLast_cons_of_ne_nil] at hlast

section Prefix

variable (erases : List (UInt32 × UInt32)) (segs : List Segment) (verify : Bool)

theorem prepare_prefix : [.exclusiveAccess, .exitXip] <+: loadPlan erases segs verify := by
  rw [loadPlan_eq, flashSteps]
  simp [List.cons_prefix_cons]

theorem erases_prefix :
    .exclusiveAccess :: .exitXip :: erases.map (fun e => .flashErase e.1 e.2) <+:
      loadPlan erases segs verify := by
  rw [loadPlan_eq, flashSteps]
  simp [List.cons_prefix_cons]

theorem flashSteps_prefix : flashSteps erases segs <+: loadPlan erases segs verify := by
  rw [loadPlan_eq]
  exact List.prefix_append _ _

end Prefix

section Load

variable {erases : List (UInt32 × UInt32)} {segs : List Segment} {verify : Bool}
  {d d' : Device} {tr : BusTrace} {o : Outcome LoadError Unit}
  (h : LoopRuns Step.perform (loadPlan erases segs verify) d tr o d')

include h

/-- When the packet of a command is sent, a step with this command is next, and
the steps before it are over. -/
theorem step_at_packet {pre post : BusTrace} {ev : Request × Completion} {cmd : Command}
    (heq : tr = pre ++ ev :: post) (hev : ev.1.IsPacketOf cmd) :
    ∃ done step rest, loadPlan erases segs verify = done ++ step :: rest ∧ step.cmd = cmd ∧
      List.Forall₂ Step.Made done (Link.start.after pre).finished := by
  subst heq
  obtain ⟨done, step, rest, xs, d₁, -, -, hsplit, hl, hxs, -, hpacket, -⟩ :=
    packets_in_order h (loadPlan_fits _ _ _) (loadPlan_dropLast _ _ _) ⟨_, hev⟩ []
  refine ⟨done, step, rest, hsplit, ?_, ?_⟩
  · have hrole : (some step.cmd : Option Command) = some cmd := by
      simpa [Request.IsPacketOf, hpacket] using hev
    exact Option.some.inj hrole
  · rw [Link.start, hl]
    exact hxs

/-- Nothing is erased before the device is prepared. -/
theorem erase_sentAfter (addr size : UInt32) : SentAfter tr (.flashErase addr size) Prepared := by
  intro pre ev post heq hev
  obtain ⟨done, step, rest, hsplit, hcmd, hxs⟩ := step_at_packet h heq hev
  refine prepared_of_made hxs (prefix_of_not_mem (hsplit ▸ prepare_prefix ..) ?_)
  intro hmem
  simp only [List.mem_cons, List.not_mem_nil, or_false] at hmem
  rcases hmem with rfl | rfl <;> simp [Step.cmd] at hcmd

/-- Nothing is written before all erases are over. -/
theorem write_sentAfter (addr len : UInt32) :
    SentAfter tr (.write addr len) fun fin => Prepared fin ∧ Erased erases fin := by
  intro pre ev post heq hev
  obtain ⟨done, step, rest, hsplit, hcmd, hxs⟩ := step_at_packet h heq hev
  -- the first packet of a write comes after everything that carries another command
  have hnot : step ∉ .exclusiveAccess :: .exitXip ::
      erases.map (fun e => Step.flashErase e.1 e.2) := by
    intro hmem
    simp only [List.mem_cons, List.mem_map] at hmem
    rcases hmem with rfl | rfl | ⟨e, -, rfl⟩ <;> simp [Step.cmd] at hcmd
  have hpre := prefix_of_not_mem (hsplit ▸ erases_prefix erases segs verify) hnot
  refine ⟨prepared_of_made hxs ?_, erased_of_made hxs fun e he => hpre.subset ?_⟩
  · exact List.IsPrefix.trans (by simp) hpre
  · simp only [List.mem_cons, List.mem_map]
    exact .inr (.inr ⟨e, he, rfl⟩)

/-- Nothing is read before all writes are over. -/
theorem read_sentAfter (addr len : UInt32) : SentAfter tr (.read addr len) (Written segs) := by
  intro pre ev post heq hev
  obtain ⟨done, step, rest, hsplit, hcmd, hxs⟩ := step_at_packet h heq hev
  have hnot : step ∉ flashSteps erases segs := by
    intro hmem
    simp only [flashSteps, List.mem_cons, List.mem_append, List.mem_map] at hmem
    rcases hmem with rfl | rfl | ⟨e, -, rfl⟩ | ⟨p, -, rfl⟩ <;> simp [Step.cmd] at hcmd
  have hpre := prefix_of_not_mem (hsplit ▸ flashSteps_prefix erases segs verify) hnot
  refine written_of_made hxs fun p hp => hpre.subset ?_
  simp only [flashSteps, List.mem_cons, List.mem_append, List.mem_map]
  exact .inr (.inr (.inr ⟨p, hp, rfl⟩))

/-- No packet follows a failed transfer or a mismatch. -/
theorem packet_stops (hfits : FitsAddressSpace segs)
    (hgap : segs.Pairwise fun s t => s.toRun.stop < t.addr.toNat) {pre post : BusTrace}
    {ev : Request × Completion} (heq : tr = pre ++ ev :: post) (hev : ev.1.IsPacket) :
    (∀ ev' ∈ pre, Succeeded ev') ∧ NoMismatch segs (Link.start.after pre).finished := by
  subst heq
  obtain ⟨done, step, rest, xs, d₁, t, o₁, hsplit, hl, hxs, hpassed, -⟩ :=
    packets_in_order h (loadPlan_fits _ _ _) (loadPlan_dropLast _ _ _) hev []
  refine ⟨hpassed, ?_⟩
  rw [Link.start, hl]
  exact noMismatch_of_plan hfits hgap (hsplit ▸ List.prefix_append _ _) hxs

/-- A failed transfer is what the load reports, unless it is the acknowledgement
of the reboot. -/
theorem failure_reported {ev : Request × Completion} {e : DeviceError} (hev : ev ∈ tr)
    (hf : ev.1.failure ev.2 = some e) :
    o = .err (.device e) ∨ (ev.1.op = .rebootAck ∧ o = .ok ()) := by
  obtain ⟨pre, post, rfl⟩ := List.append_of_mem hev
  obtain ⟨done, step, rest, d₁, d₂, t₁, t₂, t₃, o₁, hsplit, -, -, hstep, hend⟩ := h.split_at
  have hmem : step ∈ loadPlan erases segs verify := by simp [hsplit]
  obtain ⟨-, hrun⟩ := perform_runs (loadPlan_fits _ _ _ step hmem) hstep
  rcases hrun.of_failure (by simp) hf with ho₁ | ⟨hstep', hop, ho₁⟩
  · rcases hend with ⟨hok, -⟩ | ⟨-, -, ho, -⟩
    · simp [hok] at ho₁
    · exact .inl (ho.trans ho₁)
  · -- the reboot is the last step
    subst hstep'
    obtain rfl := rest_of_reboot hsplit
    rcases hend with ⟨-, t₄, -, hrest⟩ | ⟨hno, -⟩
    · cases hrest
      exact .inr ⟨hop, rfl⟩
    · exact absurd ho₁ hno

/-- A mismatch is what the load reports. -/
theorem mismatch_reported (hfits : FitsAddressSpace segs)
    (hgap : segs.Pairwise fun s t => s.toRun.stop < t.addr.toNat) {p : Segment}
    (hp : p ∈ pieces segs) {x : Exchange} (hx : x ∈ (Link.start.after tr).finished)
    (hcmd : x.cmd = .read p.addr (U32.ofUsize p.data.length)) (hne : x.received ≠ p.data) :
    o = .err (.verifyMismatch p.addr) := by
  obtain ⟨xs, hledger, hl⟩ := steps_ledger h (loadPlan_fits _ _ _) (loadPlan_dropLast _ _ _) []
  rw [Link.start, hl, List.nil_append] at hx
  cases hledger with
  | made hpre hxs _ _ =>
      exact absurd (noMismatch_of_plan hfits hgap hpre hxs p hp x hx hcmd) hne
  | differs hpre hxs hlast _ ho =>
      rcases List.mem_append.mp hx with hx | hx
      · have hpre' := (List.prefix_append _ _).trans hpre
        exact absurd (noMismatch_of_plan hfits hgap hpre' hxs p hp x hx hcmd) hne
      · obtain rfl := List.mem_singleton.mp hx
        have hread := hlast.cmd.symm.trans hcmd
        simp only [Step.cmd, Command.read.injEq] at hread
        rw [ho, hread.1]

/-- The reboot is sent after everything else, and no packet follows it. -/
theorem reboot_last {pre post : BusTrace} {ev : Request × Completion} {pc sp delayMs : UInt32}
    (heq : tr = pre ++ ev :: post) (hev : ev.1.IsPacketOf (.reboot pc sp delayMs)) :
    (Erased erases (Link.start.after pre).finished ∧ Written segs (Link.start.after pre).finished ∧
      (verify = true → ReadBackAll segs (Link.start.after pre).finished)) ∧
    ∀ ev' ∈ post, ¬ ev'.1.IsPacket := by
  subst heq
  obtain ⟨done, step, rest, xs, d₁, t, o₁, hsplit, hl, hxs, -, hpacket, hrun, hend⟩ :=
    packets_in_order h (loadPlan_fits _ _ _) (loadPlan_dropLast _ _ _) ⟨_, hev⟩ []
  have hstep : step = .reboot := by
    have hcmd : step.cmd = .reboot pc sp delayMs := by
      simpa [Request.IsPacketOf, hpacket] using hev
    cases step <;> simp [Step.cmd] at hcmd ⊢
  subst hstep
  have hlast := loadPlan_dropLast erases segs verify
  have hinit : (loadPlan erases segs verify).dropLast <+: done ++ .reboot :: rest := by
    rw [← hsplit]
    exact List.dropLast_prefix _
  have hpre := prefix_of_not_mem hinit hlast
  have hrest := rest_of_reboot hsplit
  rw [Link.start, hl]
  refine ⟨⟨erased_of_made hxs fun e he => hpre.subset ?_,
    written_of_made hxs fun p hp => hpre.subset ?_,
    fun hv => readBackAll_of_made hxs fun p hp => hpre.subset ?_⟩, ?_⟩
  · simp only [loadPlan, List.dropLast_concat, List.mem_append, List.mem_map]
    exact .inl (.inl (.inr ⟨e, he, rfl⟩))
  · simp only [loadPlan, List.dropLast_concat, List.mem_append, List.mem_map]
    exact .inl (.inr ⟨p, hp, rfl⟩)
  · simp only [loadPlan, List.dropLast_concat, hv, if_true, List.mem_append, List.mem_cons,
      List.mem_map]
    exact .inr (.inr ⟨p, hp, rfl⟩)
  · -- what follows is the rest of the reboot's own script
    have hpost : post = t := by
      rcases hend with ⟨-, t', rfl, hloop⟩ | ⟨-, rfl, -⟩
      · rw [hrest] at hloop
        cases hloop
        simp
      · rfl
    subst hpost
    intro ev' hev' hpacket'
    obtain ⟨a, b, rfl⟩ := List.append_of_mem hev'
    -- a second packet of the reboot would have to open it
    have hfirst := StepRun.packet_first
      (show StepRun d₁ .reboot ((ev :: a) ++ ev' :: b) o₁ from hrun)
    exact absurd (hfirst hpacket').1 (by simp)

/-- A load keeps the order. -/
theorem loadOrder (hfits : FitsAddressSpace segs)
    (hgap : segs.Pairwise fun s t => s.toRun.stop < t.addr.toNat) :
    LoadOrder erases segs verify tr o where
  erase := erase_sentAfter h
  write := write_sentAfter h
  read := read_sentAfter h
  reboot _ _ _ _ _ _ heq hev := (reboot_last h heq hev).1
  last _ _ _ heq hreboot := by
    obtain ⟨_, _, _, hev⟩ := hreboot
    exact (reboot_last h heq hev).2
  stops _ _ _ heq hev := packet_stops h hfits hgap heq hev
  failed _ hev _ hf := failure_reported h hev hf
  mismatch _ hp _ hx hcmd hne := mismatch_reported h hfits hgap hp hx hcmd hne

end Load

end PicotoolRs
