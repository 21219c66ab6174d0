import PicotoolRs.Lib.Outcome

/-!
# PicotoolRs.Lib.Interaction

Host programs that talk to a peer one **request** at a time.

`Prog` is the free monad over one operation: issue a request, wait for the
response, go on. It fixes nothing about the peer: `Prog.Runs p tr a` says that
`p`, given *some* sequence of responses, issues the requests of `tr`, receives
the responses of `tr`, and ends with `a`. A statement about every `tr` is
therefore a statement about every peer, however it misbehaves.

`Session` adds the host's own state and the three outcomes of `Outcome`. The
state survives an error, as the fields behind a `&mut self` do.

Two shapes of program have a law of their own:

* A session that issues a fixed list of requests, each after the one before has
  passed, makes an `Attempt` at that list (`Session.Attempts`).
* `forM xs f` runs `f` over a list and stops at the first call that does not
  return. Its runs are the `LoopRuns`.
-/

namespace Lib

variable {Req Resp α β γ σ τ ε ε' : Type}

/-- A program that issues requests. -/
inductive Prog (Req Resp α : Type)
  /-- It ends. -/
  | done (a : α)
  /-- It issues `r` and goes on with the response. -/
  | call (r : Req) (k : Resp → Prog Req Resp α)

/-- The events of a run: each request with the response it received. -/
abbrev Trace (Req Resp : Type) := List (Req × Resp)

namespace Prog

/-- Go on with the result. -/
def bind : Prog Req Resp α → (α → Prog Req Resp β) → Prog Req Resp β
  | done a, f => f a
  | call r k, f => call r fun c => (k c).bind f

theorem bind_done (p : Prog Req Resp α) : p.bind done = p := by
  induction p with
  | done a => rfl
  | call r k ih => simp only [bind, ih]

theorem bind_assoc (p : Prog Req Resp α) (f : α → Prog Req Resp β) (g : β → Prog Req Resp γ) :
    (p.bind f).bind g = p.bind fun a => (f a).bind g := by
  induction p with
  | done a => rfl
  | call r k ih => simp only [bind, ih]

/-- `p.Runs tr a`: with the responses recorded in `tr`, `p` issues the requests
recorded in `tr` and ends with `a`. -/
inductive Runs : Prog Req Resp α → Trace Req Resp → α → Prop
  | done (a : α) : Runs (done a) [] a
  | call {r : Req} {k : Resp → Prog Req Resp α} {c : Resp} {tr : Trace Req Resp} {a : α} :
      Runs (k c) tr a → Runs (call r k) ((r, c) :: tr) a

@[simp] theorem runs_done {a b : α} {tr : Trace Req Resp} :
    (done a : Prog Req Resp α).Runs tr b ↔ tr = [] ∧ b = a := by
  constructor
  · intro h
    cases h
    exact ⟨rfl, rfl⟩
  · intro h
    obtain ⟨rfl, rfl⟩ := h
    exact .done _

theorem runs_call {r : Req} {k : Resp → Prog Req Resp α} {tr : Trace Req Resp} {a : α} :
    (call r k).Runs tr a ↔ ∃ c tr', tr = (r, c) :: tr' ∧ (k c).Runs tr' a := by
  constructor
  · intro h
    cases h
    exact ⟨_, _, rfl, ‹_›⟩
  · intro h
    obtain ⟨c, tr', rfl, h⟩ := h
    exact .call h

/-- A run of a sequence is a run of the first program followed by a run of the
second. -/
theorem runs_bind {p : Prog Req Resp α} {f : α → Prog Req Resp β} {tr : Trace Req Resp} {b : β} :
    (p.bind f).Runs tr b ↔ ∃ a t₁ t₂, tr = t₁ ++ t₂ ∧ p.Runs t₁ a ∧ (f a).Runs t₂ b := by
  induction p generalizing tr with
  | done a =>
      constructor
      · intro h
        exact ⟨a, [], tr, rfl, .done a, h⟩
      · intro h
        obtain ⟨a', t₁, t₂, rfl, h₁, h₂⟩ := h
        obtain ⟨rfl, rfl⟩ := runs_done.mp h₁
        exact h₂
  | call r k ih =>
      rw [bind, runs_call]
      constructor
      · intro h
        obtain ⟨c, tr', rfl, h⟩ := h
        obtain ⟨a, t₁, t₂, rfl, h₁, h₂⟩ := (ih c).mp h
        exact ⟨a, (r, c) :: t₁, t₂, rfl, .call h₁, h₂⟩
      · intro h
        obtain ⟨a, t₁, t₂, rfl, h₁, h₂⟩ := h
        obtain ⟨c, t₁', rfl, h₁'⟩ := runs_call.mp h₁
        exact ⟨c, t₁' ++ t₂, rfl, (ih c).mpr ⟨a, t₁', t₂, rfl, h₁', h₂⟩⟩

/-- A trace has one initial part that is a run. -/
theorem Runs.eq_of_prefix {p : Prog Req Resp α} {t₁ t₂ tr : Trace Req Resp} {a₁ a₂ : α}
    (h₁ : p.Runs t₁ a₁) (h₂ : p.Runs t₂ a₂) (hp₁ : t₁ <+: tr) (hp₂ : t₂ <+: tr) :
    t₁ = t₂ ∧ a₁ = a₂ := by
  induction h₁ generalizing t₂ tr with
  | done a =>
      obtain ⟨rfl, rfl⟩ := runs_done.mp h₂
      exact ⟨rfl, rfl⟩
  | call h₁ ih =>
      obtain ⟨c, t₂, rfl, h₂'⟩ := runs_call.mp h₂
      obtain ⟨_, rfl⟩ := hp₁
      rw [List.cons_append, List.cons_prefix_cons] at hp₂
      obtain ⟨heq, hp₂'⟩ := hp₂
      obtain rfl := (Prod.mk.inj heq).2
      obtain ⟨rfl, rfl⟩ := ih h₂' (List.prefix_append _ _) hp₂'
      exact ⟨rfl, rfl⟩

/-- Run against a peer that answers each request by a function of the request. -/
def exec (peer : Req → Resp) : Prog Req Resp α → Trace Req Resp × α
  | done a => ([], a)
  | call r k => let rest := (k (peer r)).exec peer; ((r, peer r) :: rest.1, rest.2)

theorem exec_runs (peer : Req → Resp) (p : Prog Req Resp α) :
    p.Runs (p.exec peer).1 (p.exec peer).2 := by
  induction p with
  | done a => exact .done a
  | call r k ih => exact .call (ih (peer r))

/-- Every response of such a run is the peer's. -/
theorem exec_answered (peer : Req → Resp) (p : Prog Req Resp α) :
    ∀ ev ∈ (p.exec peer).1, ev.2 = peer ev.1 := by
  induction p with
  | done a => simp [exec]
  | call r k ih => exact List.forall_mem_cons.mpr ⟨rfl, ih (peer r)⟩

end Prog

/-- A program with a state of its own that returns, reports an error or
panics. -/
def Session (Req Resp σ ε α : Type) := σ → Prog Req Resp (Outcome ε α × σ)

namespace Session

/-- Go on with the value; an error or a panic ends the session, in the state
reached. -/
def bind (m : Session Req Resp σ ε α) (f : α → Session Req Resp σ ε β) :
    Session Req Resp σ ε β := fun s =>
  (m s).bind fun
    | (.ok a, s') => f a s'
    | (.err e, s') => .done (.err e, s')
    | (.panic, s') => .done (.panic, s')

instance : Monad (Session Req Resp σ ε) where
  pure a := fun s => .done (.ok a, s)
  bind := bind

/-- A case distinction on how a call came out, for the monad laws. -/
theorem bind_congr_outcome {p : Prog Req Resp (Outcome ε α × σ)}
    {f g : Outcome ε α × σ → Prog Req Resp β} (h : ∀ x, f x = g x) : p.bind f = p.bind g := by
  rw [funext h]

instance : LawfulMonad (Session Req Resp σ ε) :=
  LawfulMonad.mk' _
    (fun m => funext fun s => by
      refine (bind_congr_outcome ?_).trans (m s).bind_done
      rintro ⟨_ | _ | _, _⟩ <;> rfl)
    (fun _ _ => rfl)
    (fun m f g => funext fun s => by
      refine ((m s).bind_assoc _ _).trans (bind_congr_outcome ?_)
      rintro ⟨_ | _ | _, _⟩ <;> rfl)

/-- Issue a request. -/
def request (r : Req) : Session Req Resp σ ε Resp := fun s => .call r fun c => .done (.ok c, s)

/-- The current state. -/
def get : Session Req Resp σ ε σ := fun s => .done (.ok s, s)

/-- Update the state. -/
def modify (f : σ → σ) : Session Req Resp σ ε Unit := fun s => .done (.ok (), f s)

/-- End with a given outcome, without a request. -/
def ofOutcome (o : Outcome ε α) : Session Req Resp σ ε α := fun s => .done (o, s)

/-- Report an error. -/
def throw (e : ε) : Session Req Resp σ ε α := ofOutcome (.err e)

/-- Rewrite the error that is reported. -/
def mapErr (f : ε → ε') (m : Session Req Resp σ ε α) : Session Req Resp σ ε' α := fun s =>
  (m s).bind fun x => .done (x.1.mapErr f, x.2)

/-- Hand an error to the caller as a value, to be inspected. -/
def asResult (m : Session Req Resp σ ε α) : Session Req Resp σ ε' (Except ε α) := fun s =>
  (m s).bind fun
    | (.ok a, s') => .done (.ok (.ok a), s')
    | (.err e, s') => .done (.ok (.error e), s')
    | (.panic, s') => .done (.panic, s')

/-- A computation that can only panic, as a session. -/
def ofOption (x : Option α) : Session Req Resp σ ε α := ofOutcome (.ofOption x)

/-- Issue a request, report the response if `fail` rejects it, and go on with
what `val` makes of it otherwise. -/
def checked (fail : Req → Resp → Option ε) (r : Req) (val : Resp → α) :
    Session Req Resp σ ε α := do
  let c ← request r
  match fail r c with
  | some e => throw e
  | none => pure (val c)

/-- Run a session with a state of its own, created as `init`, and return that
state as it is left. -/
def withState (init : τ) (m : Session Req Resp τ ε α) : Session Req Resp σ ε (α × τ) := fun s =>
  (m init).bind fun x => .done (x.1.bind fun a => .ok (a, x.2), s)

@[simp] theorem ofOption_some_bind (a : α) (f : α → Session Req Resp σ ε β) :
    (ofOption (some a) >>= f) = f a := rfl

@[simp] theorem ofOption_none_bind (f : α → Session Req Resp σ ε β) :
    (ofOption none >>= f) = ofOutcome .panic := rfl

/-- The errors of a sequence are rewritten part by part. -/
theorem mapErr_bind (g : ε → ε') (m : Session Req Resp σ ε α) (f : α → Session Req Resp σ ε β) :
    (m >>= f).mapErr g = m.mapErr g >>= fun a => (f a).mapErr g := by
  funext s
  refine ((m s).bind_assoc _ _).trans (Eq.trans ?_ ((m s).bind_assoc _ _).symm)
  refine bind_congr_outcome ?_
  rintro ⟨_ | _ | _, _⟩ <;> rfl

/-- `m.Runs s tr o s'`: from state `s`, with the responses of `tr`, `m` issues
the requests of `tr` and comes to `o` in state `s'`. -/
def Runs (m : Session Req Resp σ ε α) (s : σ) (tr : Trace Req Resp) (o : Outcome ε α) (s' : σ) :
    Prop := (m s).Runs tr (o, s')

/-- The run against a peer that answers by a function of the request. -/
theorem exec_runs (peer : Req → Resp) (m : Session Req Resp σ ε α) (s : σ) :
    m.Runs s ((m s).exec peer).1 ((m s).exec peer).2.1 ((m s).exec peer).2.2 :=
  Prog.exec_runs peer (m s)

section Runs

variable {s s' : σ} {tr : Trace Req Resp}

@[simp] theorem runs_pure {a : α} {o : Outcome ε α} :
    (pure a : Session Req Resp σ ε α).Runs s tr o s' ↔ tr = [] ∧ o = .ok a ∧ s' = s :=
  Prog.runs_done.trans (by simp)

@[simp] theorem runs_get {o : Outcome ε σ} :
    (get : Session Req Resp σ ε σ).Runs s tr o s' ↔ tr = [] ∧ o = .ok s ∧ s' = s :=
  Prog.runs_done.trans (by simp)

@[simp] theorem runs_modify {f : σ → σ} {o : Outcome ε Unit} :
    (modify f : Session Req Resp σ ε Unit).Runs s tr o s' ↔ tr = [] ∧ o = .ok () ∧ s' = f s :=
  Prog.runs_done.trans (by simp)

@[simp] theorem runs_ofOutcome {x o : Outcome ε α} :
    (ofOutcome x : Session Req Resp σ ε α).Runs s tr o s' ↔ tr = [] ∧ o = x ∧ s' = s :=
  Prog.runs_done.trans (by simp)

@[simp] theorem runs_throw {e : ε} {o : Outcome ε α} :
    (throw e : Session Req Resp σ ε α).Runs s tr o s' ↔ tr = [] ∧ o = .err e ∧ s' = s :=
  runs_ofOutcome

@[simp] theorem runs_request {r : Req} {o : Outcome ε Resp} :
    (request r : Session Req Resp σ ε Resp).Runs s tr o s' ↔
      ∃ c, tr = [(r, c)] ∧ o = .ok c ∧ s' = s := by
  unfold Runs request
  rw [Prog.runs_call]
  simp

/-- A run of a sequence either runs the first session to a value and then the
second, or ends with the first session's error or panic. -/
theorem runs_bind {m : Session Req Resp σ ε α} {f : α → Session Req Resp σ ε β}
    {o : Outcome ε β} :
    (m >>= f).Runs s tr o s' ↔
      (∃ a s₁ t₁ t₂, tr = t₁ ++ t₂ ∧ m.Runs s t₁ (.ok a) s₁ ∧ (f a).Runs s₁ t₂ o s') ∨
      (∃ e, o = .err e ∧ m.Runs s tr (.err e) s') ∨
      (o = .panic ∧ m.Runs s tr .panic s') := by
  refine Prog.runs_bind.trans ?_
  constructor
  · intro h
    obtain ⟨⟨_ | e | _, s₁⟩, t₁, t₂, rfl, h₁, h₂⟩ := h
    · exact .inl ⟨_, _, _, _, rfl, h₁, h₂⟩
    · obtain ⟨rfl, h⟩ := Prog.runs_done.mp h₂
      obtain ⟨rfl, rfl⟩ := Prod.mk.inj h
      exact .inr (.inl ⟨e, rfl, by rwa [List.append_nil]⟩)
    · obtain ⟨rfl, h⟩ := Prog.runs_done.mp h₂
      obtain ⟨rfl, rfl⟩ := Prod.mk.inj h
      exact .inr (.inr ⟨rfl, by rwa [List.append_nil]⟩)
  · intro h
    rcases h with ⟨a, s₁, t₁, t₂, rfl, h₁, h₂⟩ | ⟨e, rfl, h⟩ | ⟨rfl, h⟩
    · exact ⟨_, _, _, rfl, h₁, h₂⟩
    · exact ⟨_, tr, [], by simp, h, .done _⟩
    · exact ⟨_, tr, [], by simp, h, .done _⟩

/-- A sequence that returns, returns what its second part does. -/
theorem runs_bind_ok {m : Session Req Resp σ ε α} {f : α → Session Req Resp σ ε β} {b : β}
    (h : (m >>= f).Runs s tr (.ok b) s') :
    ∃ a s₁ t₁ t₂, tr = t₁ ++ t₂ ∧ m.Runs s t₁ (.ok a) s₁ ∧ (f a).Runs s₁ t₂ (.ok b) s' := by
  rcases runs_bind.mp h with h | ⟨e, he, -⟩ | ⟨hp, -⟩
  · exact h
  · simp at he
  · simp at hp

/-- A session that starts with a given outcome goes on with its value or ends
with it. -/
theorem runs_ofOutcome_bind {x : Outcome ε α} {f : α → Session Req Resp σ ε β} {o : Outcome ε β}
    (h : (ofOutcome x >>= f).Runs s tr o s') :
    (∃ a, x = .ok a ∧ (f a).Runs s tr o s') ∨
      (∃ e, x = .err e ∧ tr = [] ∧ o = .err e) ∨ (x = .panic ∧ tr = [] ∧ o = .panic) := by
  cases x with
  | ok a => exact .inl ⟨a, rfl, h⟩
  | err e =>
      obtain ⟨rfl, rfl, -⟩ := runs_ofOutcome.mp (show (ofOutcome (.err e)).Runs s tr o s' from h)
      exact .inr (.inl ⟨e, rfl, rfl, rfl⟩)
  | panic =>
      obtain ⟨rfl, rfl, -⟩ := runs_ofOutcome.mp (show (ofOutcome .panic).Runs s tr o s' from h)
      exact .inr (.inr ⟨rfl, rfl, rfl⟩)

/-- A session whose value is dropped. -/
theorem runs_void {m : Session Req Resp σ ε α} {o : Outcome ε α} (h : m.Runs s tr o s') :
    (m >>= fun _ => pure ()).Runs s tr o.void s' := by
  refine runs_bind.mpr ?_
  cases o with
  | ok a => exact .inl ⟨a, s', tr, [], by simp, h, runs_pure.mpr ⟨rfl, rfl, rfl⟩⟩
  | err e => exact .inr (.inl ⟨e, rfl, h⟩)
  | panic => exact .inr (.inr ⟨rfl, h⟩)

theorem runs_mapErr {f : ε → ε'} {m : Session Req Resp σ ε α} {o : Outcome ε' α} :
    (m.mapErr f).Runs s tr o s' ↔ ∃ o', o = o'.mapErr f ∧ m.Runs s tr o' s' := by
  refine Prog.runs_bind.trans ?_
  constructor
  · intro h
    obtain ⟨⟨o', s₁⟩, t₁, t₂, rfl, h₁, h₂⟩ := h
    obtain ⟨rfl, h⟩ := Prog.runs_done.mp h₂
    obtain ⟨rfl, rfl⟩ := Prod.mk.inj h
    exact ⟨o', rfl, by rwa [List.append_nil]⟩
  · intro h
    obtain ⟨o', rfl, h⟩ := h
    exact ⟨_, tr, [], by simp, h, .done _⟩

theorem runs_asResult {m : Session Req Resp σ ε α} {o : Outcome ε' (Except ε α)} :
    (m.asResult : Session Req Resp σ ε' _).Runs s tr o s' ↔
      (∃ a, o = .ok (.ok a) ∧ m.Runs s tr (.ok a) s') ∨
      (∃ e, o = .ok (.error e) ∧ m.Runs s tr (.err e) s') ∨
      (o = .panic ∧ m.Runs s tr .panic s') := by
  refine Prog.runs_bind.trans ?_
  constructor
  · rintro ⟨⟨a | e | _, s₁⟩, t₁, t₂, rfl, h₁, h₂⟩ <;>
      obtain ⟨rfl, h⟩ := Prog.runs_done.mp h₂ <;>
      obtain ⟨rfl, rfl⟩ := Prod.mk.inj h
    · exact .inl ⟨a, rfl, by rwa [List.append_nil]⟩
    · exact .inr (.inl ⟨e, rfl, by rwa [List.append_nil]⟩)
    · exact .inr (.inr ⟨rfl, by rwa [List.append_nil]⟩)
  · intro h
    rcases h with ⟨a, rfl, h⟩ | ⟨e, rfl, h⟩ | ⟨rfl, h⟩
    · exact ⟨_, tr, [], by simp, h, .done _⟩
    · exact ⟨_, tr, [], by simp, h, .done _⟩
    · exact ⟨_, tr, [], by simp, h, .done _⟩

@[simp] theorem runs_ofOption_some {a : α} {o : Outcome ε α} :
    (ofOption (some a) : Session Req Resp σ ε α).Runs s tr o s' ↔
      tr = [] ∧ o = .ok a ∧ s' = s :=
  runs_ofOutcome

@[simp] theorem runs_ofOption_none {o : Outcome ε α} :
    (ofOption none : Session Req Resp σ ε α).Runs s tr o s' ↔ tr = [] ∧ o = .panic ∧ s' = s :=
  runs_ofOutcome

theorem runs_withState {init : τ} {m : Session Req Resp τ ε α} {o : Outcome ε (α × τ)} :
    (withState init m : Session Req Resp σ ε _).Runs s tr o s' ↔
      s' = s ∧ ∃ o' t, m.Runs init tr o' t ∧ o = o'.bind fun a => .ok (a, t) := by
  refine Prog.runs_bind.trans ?_
  constructor
  · intro h
    obtain ⟨⟨o', t⟩, t₁, t₂, rfl, h₁, h₂⟩ := h
    obtain ⟨rfl, h⟩ := Prog.runs_done.mp h₂
    obtain ⟨rfl, rfl⟩ := Prod.mk.inj h
    exact ⟨rfl, o', t, by rwa [List.append_nil], rfl⟩
  · intro h
    obtain ⟨rfl, o', t, h, rfl⟩ := h
    exact ⟨(o', t), tr, [], by simp, h, .done _⟩

/-- A session with a state of its own, of which a value is left in the end. -/
theorem runs_withState_bind_pure {init : τ} {m : Session Req Resp τ ε α} {g : α × τ → β}
    {o : Outcome ε β}
    (h : (withState init m >>= fun x => pure (g x) : Session Req Resp σ ε β).Runs s tr o s') :
    ∃ o' t, m.Runs init tr o' t ∧ o = o'.bind fun a => .ok (g (a, t)) := by
  rcases runs_bind.mp h with ⟨x, s₁, t₁, t₂, rfl, h₁, h₂⟩ | ⟨e, rfl, h₁⟩ | ⟨rfl, h₁⟩
  · obtain ⟨-, o', t, hm, ho⟩ := runs_withState.mp h₁
    obtain ⟨rfl, rfl, -⟩ := runs_pure.mp h₂
    obtain ⟨a, rfl, hx⟩ := Outcome.bind_eq_ok.mp ho.symm
    exact ⟨.ok a, t, by rwa [List.append_nil], by rw [← Outcome.ok.inj hx]; rfl⟩
  · obtain ⟨-, o', t, hm, ho⟩ := runs_withState.mp h₁
    rcases Outcome.bind_eq_err.mp ho.symm with rfl | ⟨a, -, ha⟩
    · exact ⟨.err e, t, hm, rfl⟩
    · simp at ha
  · obtain ⟨-, o', t, hm, ho⟩ := runs_withState.mp h₁
    rcases Outcome.bind_eq_panic.mp ho.symm with rfl | ⟨a, -, ha⟩
    · exact ⟨.panic, t, hm, rfl⟩
    · simp at ha

end Runs

end Session

/-! ### A fixed list of requests -/

/-- An attempt at a list of requests: they were issued in order until all had
passed, or one was rejected, or the program panicked. `fail` says whether a
response is rejected, `stuck` which requests the program panics over before
issuing them. -/
inductive Attempt (fail : Req → Resp → Option ε) (stuck : Req → Prop) :
    List Req → Trace Req Resp → Outcome ε Unit → Prop
  /-- Nothing left to issue. -/
  | done : Attempt fail stuck [] [] (.ok ())
  /-- The request passed. -/
  | next {r : Req} {rs : List Req} {c : Resp} {tr : Trace Req Resp} {o : Outcome ε Unit} :
      fail r c = none → Attempt fail stuck rs tr o → Attempt fail stuck (r :: rs) ((r, c) :: tr) o
  /-- The request was rejected. -/
  | stop {r : Req} {rs : List Req} {c : Resp} {e : ε} :
      fail r c = some e → Attempt fail stuck (r :: rs) [(r, c)] (.err e)
  /-- The program panicked before the request. -/
  | halt {r : Req} {rs : List Req} : stuck r → Attempt fail stuck (r :: rs) [] .panic

namespace Attempt

variable {fail : Req → Resp → Option ε} {stuck : Req → Prop} {rs rs₁ rs₂ : List Req}
  {tr t₁ t₂ : Trace Req Resp} {o : Outcome ε Unit}

/-- An attempt that went through, followed by another. -/
theorem append (h₁ : Attempt fail stuck rs₁ t₁ (.ok ())) (h₂ : Attempt fail stuck rs₂ t₂ o) :
    Attempt fail stuck (rs₁ ++ rs₂) (t₁ ++ t₂) o := by
  induction rs₁ generalizing t₁ with
  | nil =>
      cases h₁
      exact h₂
  | cons r rs₁ ih =>
      cases h₁ with
      | next hf h₁ => exact .next hf (ih h₁)

/-- After an attempt that did not go through, nothing more is issued. -/
theorem append_right (h : Attempt fail stuck rs₁ tr o) (ho : o ≠ .ok ()) :
    Attempt fail stuck (rs₁ ++ rs₂) tr o := by
  induction h with
  | done => exact absurd rfl ho
  | next hf _ ih => exact .next hf (ih ho)
  | stop hf => exact .stop hf
  | halt hr => exact .halt hr

/-- What was issued is an initial part of the list. -/
theorem map_fst_prefix (h : Attempt fail stuck rs tr o) : tr.map Prod.fst <+: rs := by
  induction h with
  | done => exact List.prefix_refl _
  | next _ _ ih => exact (List.prefix_cons_inj _).mpr ih
  | stop _ => exact ⟨_, rfl⟩
  | halt _ => exact List.nil_prefix

/-- An attempt that went through has issued all. -/
theorem map_fst (h : Attempt fail stuck rs tr (.ok ())) : tr.map Prod.fst = rs := by
  induction rs generalizing tr with
  | nil =>
      cases h
      rfl
  | cons r rs ih =>
      cases h with
      | next _ h => rw [List.map_cons, ih h]

/-- In an attempt that was not rejected, every request issued passed. -/
theorem passed (h : Attempt fail stuck rs tr o) (ho : ∀ e, o ≠ .err e) :
    ∀ ev ∈ tr, fail ev.1 ev.2 = none := by
  induction h with
  | done => simp
  | next hf _ ih => exact List.forall_mem_cons.mpr ⟨hf, ih ho⟩
  | stop hf => exact absurd rfl (ho _)
  | halt _ => simp

/-- In an attempt that was rejected, its last request was, and no other one. -/
theorem rejected {e : ε} (h : Attempt fail stuck rs tr (.err e)) :
    ∃ init ev, tr = init ++ [ev] ∧ (∀ ev ∈ init, fail ev.1 ev.2 = none) ∧
      fail ev.1 ev.2 = some e := by
  induction rs generalizing tr with
  | nil => cases h
  | cons r rs ih =>
      cases h with
      | next hf h =>
          obtain ⟨init, ev, rfl, hinit, hev⟩ := ih h
          exact ⟨_ :: init, ev, rfl, List.forall_mem_cons.mpr ⟨hf, hinit⟩, hev⟩
      | stop hf => exact ⟨[], _, rfl, by simp, hf⟩

/-- If every request issued passed, and there is none to panic over, all were
issued. -/
theorem complete (h : Attempt fail stuck rs tr o) (hpass : ∀ ev ∈ tr, fail ev.1 ev.2 = none)
    (hrs : ∀ r ∈ rs, ¬ stuck r) : tr.map Prod.fst = rs := by
  induction h with
  | done => rfl
  | next _ _ ih =>
      rw [List.map_cons, ih (fun ev hev => hpass ev (List.mem_cons_of_mem _ hev))
        fun r hr => hrs r (List.mem_cons_of_mem _ hr)]
  | stop hf =>
      have hnone := hpass _ (List.mem_singleton.mpr rfl)
      simp [hf] at hnone
  | halt hr => exact absurd hr (hrs _ (List.mem_cons_self ..))

/-- Without a request to panic over there is no panic. -/
theorem ne_panic (h : Attempt fail stuck rs tr o) (hrs : ∀ r ∈ rs, ¬ stuck r) : o ≠ .panic := by
  induction h with
  | done => simp
  | next _ _ ih => exact ih fun r hr => hrs r (List.mem_cons_of_mem _ hr)
  | stop _ => simp
  | halt hr => exact absurd hr (hrs _ (List.mem_cons_self ..))

end Attempt

/-- From state `s`, the session makes an attempt at the requests and leaves the
state alone. -/
def Session.Attempts (fail : Req → Resp → Option ε) (stuck : Req → Prop)
    (m : Session Req Resp σ ε α) (s : σ) (rs : List Req) : Prop :=
  ∀ tr o s', m.Runs s tr o s' → s' = s ∧ Attempt fail stuck rs tr o.void

namespace Session

variable {fail : Req → Resp → Option ε} {stuck : Req → Prop} {s : σ} {rs rs₁ rs₂ : List Req}

theorem attempts_pure (a : α) : (pure a : Session Req Resp σ ε α).Attempts fail stuck s [] := by
  intro tr o s' h
  obtain ⟨rfl, rfl, rfl⟩ := runs_pure.mp h
  exact ⟨rfl, .done⟩

/-- A sequence of sessions attempts the concatenation. -/
theorem attempts_bind {m : Session Req Resp σ ε α} {f : α → Session Req Resp σ ε β}
    (hm : m.Attempts fail stuck s rs₁) (hf : ∀ a, (f a).Attempts fail stuck s rs₂) :
    (m >>= f).Attempts fail stuck s (rs₁ ++ rs₂) := by
  intro tr o s' h
  rcases runs_bind.mp h with ⟨a, s₁, t₁, t₂, rfl, h₁, h₂⟩ | ⟨e, rfl, h'⟩ | ⟨rfl, h'⟩
  · obtain ⟨rfl, ha⟩ := hm _ _ _ h₁
    obtain ⟨rfl, hb⟩ := hf _ _ _ _ h₂
    exact ⟨rfl, ha.append hb⟩
  · obtain ⟨rfl, ha⟩ := hm _ _ _ h'
    exact ⟨rfl, ha.append_right (by simp)⟩
  · obtain ⟨rfl, ha⟩ := hm _ _ _ h'
    exact ⟨rfl, ha.append_right (by simp)⟩

/-- The current state is known. -/
theorem attempts_get_bind {f : σ → Session Req Resp σ ε α} (h : (f s).Attempts fail stuck s rs) :
    (get >>= f).Attempts fail stuck s rs := h

theorem runs_checked {r : Req} {val : Resp → α} {s' : σ} {tr : Trace Req Resp}
    {o : Outcome ε α} :
    (checked fail r val).Runs s tr o s' ↔
      s' = s ∧ ∃ c, tr = [(r, c)] ∧ o = (match fail r c with
        | some e => .err e
        | none => .ok (val c)) := by
  rw [checked, runs_bind]
  constructor
  · intro h
    rcases h with ⟨c, s₁, t₁, t₂, rfl, h₁, h₂⟩ | ⟨e, -, h⟩ | ⟨-, h⟩
    · obtain ⟨c', rfl, hc, rfl⟩ := runs_request.mp h₁
      obtain rfl : c = c' := by simpa using hc
      split at h₂
      · next e hf =>
        obtain ⟨rfl, rfl, rfl⟩ := runs_throw.mp h₂
        exact ⟨rfl, c, rfl, by rw [hf]⟩
      · next hf =>
        obtain ⟨rfl, rfl, rfl⟩ := runs_pure.mp h₂
        exact ⟨rfl, c, rfl, by rw [hf]⟩
    · obtain ⟨c, -, hc, -⟩ := runs_request.mp h
      exact absurd hc (by simp)
    · obtain ⟨c, -, hc, -⟩ := runs_request.mp h
      exact absurd hc (by simp)
  · intro h
    obtain ⟨rfl, c, rfl, rfl⟩ := h
    refine .inl ⟨c, _, [(r, c)], [], rfl, runs_request.mpr ⟨c, rfl, rfl, rfl⟩, ?_⟩
    cases fail r c with
    | some e => exact runs_throw.mpr ⟨rfl, rfl, rfl⟩
    | none => exact runs_pure.mpr ⟨rfl, rfl, rfl⟩

/-- A checked request comes back rejected, or the session goes on. -/
theorem runs_checked_bind {r : Req} {val : Resp → α} {f : α → Session Req Resp σ ε β} {s' : σ}
    {tr : Trace Req Resp} {o : Outcome ε β} :
    (checked fail r val >>= f).Runs s tr o s' ↔
      (∃ c e, fail r c = some e ∧ tr = [(r, c)] ∧ o = .err e ∧ s' = s) ∨
      ∃ c tr', fail r c = none ∧ tr = (r, c) :: tr' ∧ (f (val c)).Runs s tr' o s' := by
  rw [runs_bind]
  constructor
  · intro h
    rcases h with ⟨a, s₁, t₁, t₂, rfl, h₁, h₂⟩ | ⟨e, rfl, h⟩ | ⟨rfl, h⟩
    · obtain ⟨rfl, c, rfl, ho⟩ := runs_checked.mp h₁
      cases hf : fail r c with
      | some e => simp [hf] at ho
      | none =>
          obtain rfl : a = val c := by simpa [hf] using ho
          exact .inr ⟨c, t₂, hf, rfl, h₂⟩
    · obtain ⟨rfl, c, rfl, ho⟩ := runs_checked.mp h
      cases hf : fail r c with
      | some e' =>
          obtain rfl : e = e' := by simpa [hf] using ho
          exact .inl ⟨c, e, hf, rfl, rfl, rfl⟩
      | none => simp [hf] at ho
    · obtain ⟨rfl, c, rfl, ho⟩ := runs_checked.mp h
      cases hf : fail r c <;> simp [hf] at ho
  · intro h
    rcases h with ⟨c, e, hf, rfl, rfl, rfl⟩ | ⟨c, tr', hf, rfl, h⟩
    · exact .inr (.inl ⟨e, rfl, runs_checked.mpr ⟨rfl, c, rfl, by rw [hf]⟩⟩)
    · exact .inl ⟨val c, s, [(r, c)], tr', rfl, runs_checked.mpr ⟨rfl, c, rfl, by rw [hf]⟩, h⟩

theorem attempts_checked (r : Req) (val : Resp → α) :
    (checked fail r val : Session Req Resp σ ε α).Attempts fail stuck s [r] := by
  intro tr o s' h
  obtain ⟨rfl, c, rfl, rfl⟩ := runs_checked.mp h
  refine ⟨rfl, ?_⟩
  cases hf : fail r c with
  | some e => exact .stop hf
  | none => exact .next hf .done

end Session

/-! ### Loops -/

/-- The runs of a loop: `f` returned for every element, or for every element
before one at which it did not. -/
inductive LoopRuns (f : α → Session Req Resp σ ε Unit) :
    List α → σ → Trace Req Resp → Outcome ε Unit → σ → Prop
  | nil {s : σ} : LoopRuns f [] s [] (.ok ()) s
  | cons {x : α} {xs : List α} {s s₁ s' : σ} {t₁ t₂ : Trace Req Resp} {o : Outcome ε Unit} :
      (f x).Runs s t₁ (.ok ()) s₁ → LoopRuns f xs s₁ t₂ o s' →
      LoopRuns f (x :: xs) s (t₁ ++ t₂) o s'
  | stop {x : α} {xs : List α} {s s' : σ} {tr : Trace Req Resp} {o : Outcome ε Unit} :
      (f x).Runs s tr o s' → o ≠ .ok () → LoopRuns f (x :: xs) s tr o s'

theorem Session.runs_forM {f : α → Session Req Resp σ ε Unit} {xs : List α} {s s' : σ}
    {tr : Trace Req Resp} {o : Outcome ε Unit} :
    (forM xs f : Session Req Resp σ ε PUnit).Runs s tr o s' ↔ LoopRuns f xs s tr o s' := by
  induction xs generalizing s tr with
  | nil =>
      rw [List.forM_nil, runs_pure]
      constructor
      · intro h
        obtain ⟨rfl, rfl, rfl⟩ := h
        exact .nil
      · intro h
        cases h
        exact ⟨rfl, rfl, rfl⟩
  | cons x xs ih =>
      rw [List.forM_cons, runs_bind]
      constructor
      · intro h
        rcases h with ⟨⟨⟩, s₁, t₁, t₂, rfl, h₁, h₂⟩ | ⟨e, rfl, h⟩ | ⟨rfl, h⟩
        · exact .cons h₁ (ih.mp h₂)
        · exact .stop h (by simp)
        · exact .stop h (by simp)
      · intro h
        cases h with
        | cons h₁ h₂ => exact .inl ⟨(), _, _, _, rfl, h₁, ih.mpr h₂⟩
        | stop h ho =>
            cases o with
            | ok u => exact absurd rfl ho
            | err e => exact .inr (.inl ⟨e, rfl, h⟩)
            | panic => exact .inr (.inr ⟨rfl, h⟩)

namespace LoopRuns

variable {f : α → Session Req Resp σ ε Unit} {xs ys : List α} {s s₁ s' : σ}
  {tr t₁ t₂ : Trace Req Resp} {o : Outcome ε Unit}

/-- A loop that ran through, continued. -/
theorem append (h₁ : LoopRuns f xs s t₁ (.ok ()) s₁) (h₂ : LoopRuns f ys s₁ t₂ o s') :
    LoopRuns f (xs ++ ys) s (t₁ ++ t₂) o s' := by
  induction xs generalizing s t₁ with
  | nil =>
      cases h₁
      exact h₂
  | cons x xs ih =>
      cases h₁ with
      | cons hx hxs =>
          rw [List.append_assoc]
          exact .cons hx (ih hxs)
      | stop _ ho => exact absurd rfl ho

/-- A loop that did not run through, over a longer list. -/
theorem append_right (h : LoopRuns f xs s tr o s') (ho : o ≠ .ok ()) :
    LoopRuns f (xs ++ ys) s tr o s' := by
  induction h with
  | nil => exact absurd rfl ho
  | cons hx _ ih => exact .cons hx (ih ho)
  | stop hx _ => exact .stop hx ho

/-- A loop over two lists in a row runs through the first and goes on with the
second, or stops in the first. -/
theorem split_append (h : LoopRuns f (xs ++ ys) s tr o s') :
    (∃ s₁ t₁ t₂, tr = t₁ ++ t₂ ∧ LoopRuns f xs s t₁ (.ok ()) s₁ ∧ LoopRuns f ys s₁ t₂ o s') ∨
      (o ≠ .ok () ∧ LoopRuns f xs s tr o s') := by
  induction xs generalizing s tr with
  | nil => exact .inl ⟨s, [], tr, rfl, .nil, h⟩
  | cons x xs ih =>
      cases h with
      | cons hx hxs =>
          rcases ih hxs with ⟨s₁, t₁, t₂, rfl, h₁, h₂⟩ | ⟨ho, h₁⟩
          · exact .inl ⟨s₁, _, t₂, (List.append_assoc ..).symm, .cons hx h₁, h₂⟩
          · exact .inr ⟨ho, .cons hx h₁⟩
      | stop hx ho => exact .inr ⟨ho, .stop hx ho⟩

/-- A loop that did not run through ended with one of its calls. -/
theorem split_stop (h : LoopRuns f xs s tr o s') (ho : o ≠ .ok ()) :
    ∃ done x rest s₁ t₁ t₂, xs = done ++ x :: rest ∧ tr = t₁ ++ t₂ ∧
      LoopRuns f done s t₁ (.ok ()) s₁ ∧ (f x).Runs s₁ t₂ o s' := by
  induction h with
  | nil => exact absurd rfl ho
  | @cons x xs s s₁ s' t₁ t₂ o hx _ ih =>
      obtain ⟨done, y, rest, s₂, u₁, u₂, rfl, rfl, hdone, hy⟩ := ih ho
      exact ⟨x :: done, y, rest, s₂, t₁ ++ u₁, u₂, rfl, by simp, .cons hx hdone, hy⟩
  | @stop x xs s s' tr o hx _ =>
      exact ⟨[], x, xs, s, [], tr, rfl, rfl, .nil, hx⟩

/-- At any event of a loop: the calls before went through, and the event belongs
to the call for the next element, which either returned, so that the loop went
on, or ended the loop. -/
theorem split_at {pre post : Trace Req Resp} {ev : Req × Resp}
    (h : LoopRuns f xs s (pre ++ ev :: post) o s') :
    ∃ done x rest s₁ s₂ t₁ t₂ t₃ o₁, xs = done ++ x :: rest ∧ pre = t₁ ++ t₂ ∧
      LoopRuns f done s t₁ (.ok ()) s₁ ∧ (f x).Runs s₁ (t₂ ++ ev :: t₃) o₁ s₂ ∧
      ((o₁ = .ok () ∧ ∃ t₄, post = t₃ ++ t₄ ∧ LoopRuns f rest s₂ t₄ o s') ∨
        (o₁ ≠ .ok () ∧ post = t₃ ∧ o = o₁ ∧ s' = s₂)) := by
  generalize htr : pre ++ ev :: post = tr at h
  induction h generalizing pre with
  | nil => simp at htr
  | @cons x xs s s₁ s' t₁ t₂ o hx hxs ih =>
      rcases List.append_eq_append_iff.mp htr with ⟨a, rfl, hev⟩ | ⟨a, rfl, hev⟩
      · cases a with
        | nil =>
            -- the event opens the rest of the loop
            obtain ⟨done, y, rest, s₂, s₃, u₁, u₂, u₃, o₁, rfl, hpre, hdone, hy, hend⟩ :=
              ih (show [] ++ ev :: post = _ by simpa using hev)
            obtain ⟨rfl, rfl⟩ := List.append_eq_nil_iff.mp hpre.symm
            refine ⟨x :: done, y, rest, s₂, s₃, pre ++ [], [], u₃, o₁, rfl, by simp, ?_, hy, hend⟩
            exact .cons (by simpa using hx) hdone
        | cons b a =>
            obtain ⟨rfl, rfl⟩ := List.cons.inj hev
            exact ⟨[], x, xs, s, s₁, [], pre, a, .ok (), rfl, rfl, .nil, hx,
              .inl ⟨rfl, _, rfl, hxs⟩⟩
      · obtain ⟨done, y, rest, s₂, s₃, u₁, u₂, u₃, o₁, rfl, rfl, hdone, hy, hend⟩ := ih hev.symm
        exact ⟨x :: done, y, rest, s₂, s₃, t₁ ++ u₁, u₂, u₃, o₁, rfl, by simp, .cons hx hdone, hy,
          hend⟩
  | @stop x xs s s' tr o hx ho =>
      subst htr
      exact ⟨[], x, xs, s, s', [], pre, post, o, rfl, rfl, .nil, hx, .inr ⟨ho, rfl, rfl, rfl⟩⟩

end LoopRuns

end Lib
