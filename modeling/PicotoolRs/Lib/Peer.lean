import PicotoolRs.Lib.Interaction

/-!
# PicotoolRs.Lib.Peer

Peers with a state of their own, and host programs that talk to them.

A `Peer` says what it may do with a request: a response and a state after, more
than one of them, or none. `Serves` follows it along a trace. A run of a program
whose trace is served is a run of the **closed system** of the two; a statement
about all of these holds whatever choices the peer makes. A peer that always has
an answer takes every program to an end (`Prog.exists_run`).
-/

namespace Lib

variable {Req Resp α S : Type}

/-- What a peer may do in a state with a request: respond, and go to another
state. -/
abbrev Peer (Req Resp S : Type) := S → Req → Resp → S → Prop

/-- The peer takes part in the events of a trace. -/
inductive Peer.Serves (P : Peer Req Resp S) : S → Trace Req Resp → S → Prop
  | nil {s : S} : Serves P s [] s
  | cons {s s₁ s' : S} {r : Req} {c : Resp} {tr : Trace Req Resp} :
      P s r c s₁ → Serves P s₁ tr s' → Serves P s ((r, c) :: tr) s'

namespace Peer

variable {P Q : Peer Req Resp S} {s s' : S} {t₁ t₂ tr : Trace Req Resp}

@[simp] theorem serves_nil : P.Serves s [] s' ↔ s' = s := by
  constructor
  · intro h
    cases h
    rfl
  · intro h
    subst h
    exact .nil

theorem serves_cons {r : Req} {c : Resp} :
    P.Serves s ((r, c) :: tr) s' ↔ ∃ s₁, P s r c s₁ ∧ P.Serves s₁ tr s' := by
  constructor
  · intro h
    cases h with
    | cons h₁ h₂ => exact ⟨_, h₁, h₂⟩
  · intro h
    obtain ⟨s₁, h₁, h₂⟩ := h
    exact .cons h₁ h₂

theorem serves_singleton {r : Req} {c : Resp} : P.Serves s [(r, c)] s' ↔ P s r c s' := by
  rw [serves_cons]
  constructor
  · intro h
    obtain ⟨s₁, h₁, hnil⟩ := h
    obtain rfl := serves_nil.mp hnil
    exact h₁
  · intro h
    exact ⟨s', h, .nil⟩

theorem serves_append : P.Serves s (t₁ ++ t₂) s' ↔ ∃ s₁, P.Serves s t₁ s₁ ∧ P.Serves s₁ t₂ s' := by
  induction t₁ generalizing s with
  | nil => simp
  | cons ev t₁ ih =>
      obtain ⟨r, c⟩ := ev
      simp only [List.cons_append, serves_cons, ih]
      constructor
      · intro h
        obtain ⟨s₁, h₁, s₂, h₂, h₃⟩ := h
        exact ⟨s₂, ⟨s₁, h₁, h₂⟩, h₃⟩
      · intro h
        obtain ⟨s₂, ⟨s₁, h₁, h₂⟩, h₃⟩ := h
        exact ⟨s₁, h₁, s₂, h₂, h₃⟩

/-- A peer with fewer choices is served by one with more. -/
theorem Serves.mono (h : P.Serves s tr s') (hPQ : ∀ s r c s₁, P s r c s₁ → Q s r c s₁) :
    Q.Serves s tr s' := by
  induction h with
  | nil => exact .nil
  | cons h₁ _ ih => exact .cons (hPQ _ _ _ _ h₁) ih

/-- The peer has an answer to every request in every state. -/
def Total (P : Peer Req Resp S) : Prop := ∀ s r, ∃ c s', P s r c s'

end Peer

/-- Against a peer that always has an answer, a program comes to an end. -/
theorem Prog.exists_run {P : Peer Req Resp S} (hP : P.Total) (p : Prog Req Resp α) (s : S) :
    ∃ tr a s', p.Runs tr a ∧ P.Serves s tr s' := by
  induction p generalizing s with
  | done a => exact ⟨[], a, s, .done a, .nil⟩
  | call r k ih =>
      obtain ⟨c, s₁, hc⟩ := hP s r
      obtain ⟨tr, a, s', hrun, hserves⟩ := ih c s₁
      exact ⟨(r, c) :: tr, a, s', .call hrun, .cons hc hserves⟩

end Lib
