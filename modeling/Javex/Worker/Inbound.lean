import Javex.Worker.Supervisor

/-!
# What the supervisor is sent

The stdin thread between the BEAM and the channel, as long as the BEAM only sends completions
within the bounds (`WellFormed`). The invariant `Inbound` splits what was sent into the
completions handed to the channel, the one in the thread's hand and those still in the port,
and keeps the thread's two counters in step with them. The thread leaves its loop only when a
`try_send` fails.

The two counters of the thread are the completions and the bytes that it may still read, and each
would stop the thread if it ran out. They start at `max_callback_calls` and at 64 MiB, and the
sender keeps to these numbers; `Counted` says that at any time what is left and what has been handed
on add up to them, so what is left is enough for what the port still holds.
-/

namespace Javex.Worker

open Codec Codec.Decoder Isolated Transition

/-- The bytes of some completions. -/
def volume (cs : List Bytes) : ℕ := (cs.map List.length).sum

@[simp]
theorem volume_append (cs ds : List Bytes) : volume (cs ++ ds) = volume cs + volume ds := by
  simp [volume]

@[simp]
theorem volume_singleton (c : Bytes) : volume [c] = c.length := by simp [volume]

@[simp]
theorem volume_cons (c : Bytes) (cs : List Bytes) : volume (c :: cs) = c.length + volume cs := by
  simp [volume]

@[simp]
theorem volume_nil : volume [] = 0 := rfl

/-- The completion the stdin thread holds. -/
def Stdin.hand : Stdin → List Bytes
  | .sending _ _ bytes => [bytes]
  | _ => []

/-- What the writer thread has still to write of its frame. -/
def Writer.rest : Writer → Bytes
  | .writing rest => rest
  | .receiving | .leaving | .stored | .gone => []

/-- The writer thread has not left its loop. -/
def Writer.Live : Writer → Prop
  | .writing _ | .receiving => True
  | _ => False

/-- A write to a child that reads moves bytes into its pipe. -/
theorem stepWriter_writing {s t : State} {n : ℕ} {rest : Bytes} (hwriter : s.writer = .writing rest)
    (hreads : s.childReads = true) (h : stepWriter s n = some t) :
    ∃ (chunk : Bytes) (w : Writer), w.Live ∧ rest = chunk ++ w.rest ∧
      t = { s with childIn := s.childIn ++ chunk, writer := w } := by
  simp only [stepWriter, hwriter, hreads, Bool.not_true, Bool.false_eq_true, if_false] at h
  split_ifs at h with hn hrest
  · cases h
    refine ⟨rest.take n, .receiving, trivial, ?_, by rw [hreads]⟩
    rw [Writer.rest, ← hrest, List.take_append_drop]
  · cases h
    refine ⟨rest.take n, .writing (rest.drop n), trivial, ?_, by rw [hreads]⟩
    rw [Writer.rest, List.take_append_drop]

/-- The BEAM sends completions within the bounds, at most `max_callback_calls` of them and
64 MiB in all; it neither cancels nor closes its port, and the deadline does not pass. -/
def WellFormed (cfg : Config) (s : State) : Label → Prop
  | .complete bytes => bytes ≠ [] ∧ bytes.length ≤ cfg.completionMaximum ∧
      volume s.sent + bytes.length ≤ mib64 ∧ s.sent.length < cfg.maxCallbacks
  | .cancel | .close => False
  | .poll late => late = false
  | _ => True

instance (cfg : Config) (s : State) : DecidablePred (WellFormed cfg s)
  | .complete _ => inferInstanceAs (Decidable (_ ∧ _))
  | .cancel | .close => inferInstanceAs (Decidable False)
  | .poll _ => inferInstanceAs (Decidable (_ = _))
  | .arrive _ | .write _ | .consume _ | .closeInput | .closeOutput | .exit _ | .boot | .ask _ _
  | .take | .finish _ _ | .writer _ | .stdin | .reader => inferInstanceAs (Decidable True)

/-- The counters of the stdin thread when it has handed on `handed`. -/
def Counted (cfg : Config) (handed : List Bytes) : Stdin → Prop
  | .reading left remaining =>
    left + handed.length = cfg.maxCallbacks ∧ remaining + volume handed = mib64
  | .sending left remaining bytes =>
    left + handed.length = cfg.maxCallbacks ∧ remaining + bytes.length + volume handed = mib64
  | _ => False

/-- The way of the completions up to the channel: `handed` went into it, `waiting` is what the
port still holds. -/
structure Inbound (cfg : Config) (s : State) (handed waiting : List Bytes) : Prop where
  sent_eq : s.sent = handed ++ s.stdin.hand ++ waiting
  port_eq : waiting.flatMap frameBytes = s.portIn ++ s.queued
  counted : Counted cfg handed s.stdin
  bounded : ∀ c ∈ s.sent, c ≠ [] ∧ c.length ≤ cfg.completionMaximum
  volume_le : volume s.sent ≤ mib64
  length_le : s.sent.length ≤ cfg.maxCallbacks
  portOpen : s.portClosed = false

variable {cfg : Config} {s t : State} {handed waiting : List Bytes}

theorem completionMaximum_le (cfg : Config) : cfg.completionMaximum ≤ mib64 :=
  Nat.min_le_right _ _

theorem inbound_start : Inbound cfg (.start cfg) [] [] where
  sent_eq := rfl
  port_eq := rfl
  counted := ⟨rfl, rfl⟩
  bounded _ hc := absurd hc List.not_mem_nil
  volume_le := Nat.zero_le _
  length_le := Nat.zero_le _
  portOpen := rfl

/-- A step that leaves the port and the stdin thread alone. -/
theorem Inbound.elsewhere (h : Inbound cfg s handed waiting) (hsent : t.sent = s.sent)
    (hstdin : t.stdin = s.stdin) (hport : t.portIn ++ t.queued = s.portIn ++ s.queued)
    (hclosed : t.portClosed = s.portClosed) : Inbound cfg t handed waiting where
  sent_eq := by rw [hsent, hstdin, h.sent_eq]
  port_eq := by rw [hport, h.port_eq]
  counted := hstdin ▸ h.counted
  bounded := hsent ▸ h.bounded
  volume_le := hsent ▸ h.volume_le
  length_le := hsent ▸ h.length_le
  portOpen := hclosed.trans h.portOpen

/-- The BEAM sends one more completion. -/
theorem Inbound.complete (h : Inbound cfg s handed waiting) {bytes : Bytes}
    (hbytes : WellFormed cfg s (.complete bytes)) :
    Inbound cfg { s.send bytes with sent := s.sent ++ [bytes] } handed (waiting ++ [bytes]) := by
  obtain ⟨hne, hlen, hvolume, hcalls⟩ := hbytes
  refine ⟨?_, ?_, h.counted, ?_, ?_, ?_, h.portOpen⟩
  · simp only [h.sent_eq, State.send, List.append_assoc]
  · simp only [State.send, List.flatMap_append, List.flatMap_singleton, h.port_eq,
      List.append_assoc]
  · intro c hc
    rcases List.mem_append.mp hc with hold | hthis
    · exact h.bounded c hold
    · exact List.mem_singleton.mp hthis ▸ ⟨hne, hlen⟩
  · simpa using hvolume
  · simp only [List.length_append, List.length_singleton]
    exact hcalls

/-- The first completion that the port holds is within the budget of the stdin thread. -/
theorem Inbound.first (h : Inbound cfg s handed waiting) {left remaining : ℕ}
    (hstdin : s.stdin = .reading left remaining) : ∀ c ∈ waiting.head?,
      c.length ≤ min remaining cfg.completionMaximum ∧ c.length < 4294967296 := by
  intro c hc
  have hmib : mib64 < 4294967296 := by decide
  have hmax := completionMaximum_le cfg
  have hcounted := h.counted
  have hsent := h.sent_eq
  have hvolume := h.volume_le
  rw [hstdin] at hcounted hsent
  simp only [Stdin.hand, List.append_nil] at hsent
  have hbound := h.bounded c (by rw [hsent]; simp [List.mem_of_mem_head? hc])
  obtain ⟨later, rfl⟩ := List.head?_eq_some_iff.mp hc
  rw [hsent, volume_append, volume_cons] at hvolume
  have hbudget := hcounted.2
  omega

/-- **The stdin thread stays in its loop** as long as it finds room in the channel, and what it
hands on is what was sent. -/
theorem Inbound.stdin (h : Inbound cfg s handed waiting)
    (hroom : s.stdin.hand ≠ [] → s.writer ≠ .gone ∧ s.channel.length < cfg.capacity)
    (hstep : stepStdin cfg s = some t) :
    ∃ new later, Inbound cfg t (handed ++ new) later ∧ t.channel = s.channel ++ new ∧
      t.cancelled = s.cancelled := by
  have hcounted := h.counted
  have hsent := h.sent_eq
  have hlength := h.length_le
  unfold stepStdin at hstep
  cases hstdin : s.stdin with
  | reading left remaining =>
    simp only [hstdin, Counted] at hstep hcounted
    rw [hstdin] at hsent
    simp only [Stdin.hand, List.append_nil] at hsent
    have hfirst := h.first hstdin
    rcases frame_next_of_flatMap h.port_eq hfirst with
      hmore | ⟨c, rest, others, rfl, hdone, hrest⟩
    · simp only [hmore, h.portOpen] at hstep
      cases hstep
    · have hbound := h.bounded c (by rw [hsent]; simp)
      simp only [hdone, if_neg hbound.1] at hstep
      cases hstep
      have hc := (hfirst c rfl).1
      refine ⟨[], others, ⟨?_, hrest, ?_, h.bounded, h.volume_le, h.length_le,
        h.portOpen⟩, ?_, rfl⟩
      · simpa [Stdin.hand] using hsent
      · simp only [Counted, List.append_nil]
        omega
      · simp
  | sending left remaining bytes =>
    have hfree := hroom (by rw [hstdin]; simp [Stdin.hand])
    simp only [hstdin, Counted] at hstep hcounted
    rw [if_neg (by rw [not_or]; exact ⟨hfree.1, by omega⟩)] at hstep
    have hleft : left ≠ 0 := by
      rw [hsent, hstdin] at hlength
      simp only [Stdin.hand, List.length_append, List.length_singleton] at hlength
      omega
    rw [if_neg hleft] at hstep
    cases hstep
    rw [hstdin] at hsent
    refine ⟨[bytes], waiting, ⟨?_, h.port_eq, ?_, h.bounded, h.volume_le, h.length_le,
      h.portOpen⟩, rfl, rfl⟩
    · simpa [Stdin.hand] using hsent
    · simp only [Counted, List.length_append, List.length_singleton, volume_append,
        volume_singleton]
      omega
  | leaving | stored | gone =>
    rw [hstdin] at hcounted
    exact hcounted.elim

end Javex.Worker
