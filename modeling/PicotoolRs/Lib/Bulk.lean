import Mathlib.Tactic.Common
import Mathlib.Algebra.Order.Ring.Nat

/-!
# PicotoolRs.Lib.Bulk

Bulk transfers towards the host, by the sizes of their packets.

The sender cuts its data into packets of the maximum packet size; what is left
over goes into one short packet. A transfer ends when its buffer is full or with
the first packet that is not of full size. `receive_packets` says for which
buffer a transfer ends exactly with the last packet: as many full packets as
hold the data, no more and no fewer.
-/

namespace Lib.Bulk

/-- The sizes of the packets that `n` bytes are sent in. -/
def packets (mps n : Nat) : List Nat :=
  List.replicate (n / mps) mps ++ if n % mps = 0 then [] else [n % mps]

/-- The number of packets of full size that hold `n` bytes. -/
def packetCount (mps n : Nat) : Nat := n / mps + if n % mps = 0 then 0 else 1

/-- A transfer into a buffer with room for `room` bytes: how many bytes it moves,
and which packets are left when it ends. None if it goes on waiting, or if a
packet does not fit. -/
def receive (mps : Nat) : Nat → List Nat → Option (Nat × List Nat)
  | _, [] => none
  | room, p :: ps =>
      if room < p then none
      else if p < mps ∨ p = room then some (p, ps)
      else (receive mps (room - p) ps).map fun r => (p + r.1, r.2)

variable {mps n : Nat}

/-- A full packet that neither ends the transfer nor overruns the buffer. -/
theorem receive_full {room : Nat} (h : mps < room) (ps : List Nat) :
    receive mps room (mps :: ps) =
      (receive mps (room - mps) ps).map fun r => (mps + r.1, r.2) := by
  rw [receive, if_neg (by omega), if_neg (by omega)]

/-- A short packet ends the transfer. -/
theorem receive_short {room p : Nat} (hp : p < mps) (hroom : p ≤ room) (ps : List Nat) :
    receive mps room (p :: ps) = some (p, ps) := by
  rw [receive, if_neg (by omega), if_pos (.inl hp)]

/-- Full packets fill a buffer of that many packets. -/
theorem receive_replicate (hm : 0 < mps) (k : Nat) :
    receive mps ((k + 1) * mps) (List.replicate (k + 1) mps) = some ((k + 1) * mps, []) := by
  induction k with
  | zero => simp [receive]
  | succ k ih =>
      have hlt : mps < (k + 1 + 1) * mps := by
        have hpos : 0 < (k + 1) * mps := Nat.mul_pos (Nat.succ_pos k) hm
        rw [Nat.succ_mul]
        omega
      have hroom : (k + 1 + 1) * mps - mps = (k + 1) * mps := by
        rw [Nat.succ_mul, Nat.add_sub_cancel]
      rw [List.replicate_succ, receive_full hlt, hroom, ih, Option.map_some]
      exact congrArg some (Prod.ext (by rw [Nat.succ_mul (k + 1), Nat.add_comm]) rfl)

/-- Full packets and a short one end the transfer with the short one, if the
buffer holds them. -/
theorem receive_replicate_short {s : Nat} (hs : 0 < s) (hlt : s < mps) (k : Nat) {room : Nat}
    (hroom : k * mps + s ≤ room) :
    receive mps room (List.replicate k mps ++ [s]) = some (k * mps + s, []) := by
  induction k generalizing room with
  | zero =>
      rw [List.replicate_zero, List.nil_append, receive_short hlt (by omega)]
      simp
  | succ k ih =>
      rw [Nat.succ_mul] at hroom
      have hfits : k * mps + s ≤ room - mps := by
        omega
      have hrest := ih hfits
      rw [List.replicate_succ, List.cons_append, receive_full (by omega), hrest]
      simp [Nat.succ_mul]
      omega

/-- A transfer into a buffer of as many full packets as hold the data ends
exactly when all data was sent. -/
theorem receive_packets (hm : 0 < mps) (hn : 0 < n) :
    receive mps (max (packetCount mps n) 1 * mps) (packets mps n) = some (n, []) := by
  have hdiv := Nat.div_add_mod' n mps
  by_cases hmod : n % mps = 0
  · -- the buffer is full after the last packet
    have hpos : 0 < n / mps := by
      rw [Nat.pos_iff_ne_zero]
      intro h0
      rw [h0, hmod] at hdiv
      omega
    obtain ⟨k, hk⟩ := Nat.exists_eq_succ_of_ne_zero hpos.ne'
    have hcount : max (packetCount mps n) 1 = k + 1 := by
      rw [packetCount, if_pos hmod, hk]
      omega
    rw [packets, if_pos hmod, List.append_nil, hcount, hk, receive_replicate hm]
    rw [hk, hmod] at hdiv
    exact congrArg some (Prod.ext hdiv rfl)
  · -- the last packet is short
    have hroom : n ≤ max (packetCount mps n) 1 * mps := by
      have hlt := Nat.mod_lt n hm
      have hcount : max (packetCount mps n) 1 = n / mps + 1 := by
        rw [packetCount, if_neg hmod]
        exact Nat.max_eq_left (Nat.succ_le_succ (Nat.zero_le _))
      rw [hcount, Nat.succ_mul]
      omega
    rw [packets, if_neg hmod,
      receive_replicate_short (Nat.pos_of_ne_zero hmod) (Nat.mod_lt n hm) _ (by omega), hdiv]

end Lib.Bulk
