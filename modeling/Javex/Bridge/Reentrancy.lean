import Javex.Bridge.Provider

/-!
# The concurrency quota and calls within calls

A call of the bridge compares the size of `pending` with the quota, stringifies its argument, and
then records itself. Stringifying runs code of the guest (`toJSON`, getters), which can call the
bridge again: the calls that are recorded meanwhile are not counted a second time.

`Accounted` keeps the account that the bridge does not: for each call that stringifies its argument,
the room it saw when it was checked and the calls that were recorded within it since. The two make
up the size of `pending` (`Balanced`), so a call that is recorded stays within the quota exactly if
the calls within it have left it room.

* `concurrency_quota`: the quota holds as long as the calls within a call leave it room, and fails
  at the first that do not; without calls within calls it always holds.
* `quota_exceeded`: with a quota of one, a call within a call makes two.

The account is kept beside the instance and changes nothing of it, so that every run of the instance
is a run with its account. Three kinds of runs are told apart by restrictions of the system: those
in which no argument is longer than what the bridge takes it to be and nothing else has gone wrong,
those in which the calls within a call leave it room, and those in which the guest makes one call
after the other. The second is the exact condition; the third implies it and is the one that can be
seen from the text of a program.
-/

namespace Javex.Bridge

open Codec Transition Callbacks

namespace Instance

variable {cfg : Config} {serde : Bytes → Except Bytes Json} {i j : Instance}

/-- **The quota.** Neither the pending calls nor the requests at hand nor those of a state that was
returned exceed it. -/
structure Within (cfg : Config) (i : Instance) : Prop where
  pending : i.bridge.pending.keys.length ≤ cfg.maxConcurrency
  requests : i.bridge.requests.length ≤ cfg.maxConcurrency
  emitted : ∀ state ∈ i.emitted, state.requests.length ≤ cfg.maxConcurrency

/-- The host completes no call that it has not been handed yet. -/
def Solicited (i : Instance) : Label → Prop
  | .settle _ | .throw true _ =>
    match i.phase with
    | .delivering (value :: _) => ∀ id ∈ completionId? value, id ∉ i.bridge.requests.map Call.id
    | _ => True
  | _ => True

/-- A call that is recorded still finds room. -/
def Room (cfg : Config) (i : Instance) : Label → Prop
  | .leave (some _) measured =>
    measured ≤ cfg.maxInput → i.bridge.pending.keys.length < cfg.maxConcurrency
  | _ => True

/-- No call is made within another one. -/
def Sequential (i : Instance) : Label → Prop
  | .enter _ _ => i.inside = []
  | _ => True

/-- What holds of the calls of a bridge in any run, within the quota or not. -/
structure Recorded (i : Instance) : Prop where
  distinct : (i.bridge.requests.map Call.id).Nodup
  requested : ∀ call ∈ i.bridge.requests, call.id ∈ i.bridge.pending
  counted : ∀ id, id ∈ i.bridge.pending ∨ id ∈ i.inside.map Prod.fst → id ≤ i.bridge.count
  nested : (i.inside.map Prod.fst).Nodup
  inside : ∀ id ∈ i.inside.map Prod.fst, id ∉ i.bridge.pending

/-- The bridge and the calls in it are as they were. -/
theorem Recorded.congr (h : Recorded i) (hbridge : j.bridge = i.bridge)
    (hinside : j.inside = i.inside) : Recorded j := by
  obtain ⟨hdistinct, hrequested, hcounted, hnested, hin⟩ := h
  refine ⟨?_, ?_, ?_, ?_, ?_⟩ <;> simp only [hbridge, hinside] <;> assumption

/-- The promise of a call that has been handed over is removed. -/
theorem Recorded.erase (h : Recorded i) {id : ℕ} (hid : id ∉ i.bridge.requests.map Call.id)
    (bridge : Closure) (hpending : bridge.pending = i.bridge.pending.erase id)
    (hrequests : bridge.requests = i.bridge.requests) (hcount : bridge.count = i.bridge.count) :
    Recorded { i with bridge } := by
  have hsub : ∀ {k}, k ∈ bridge.pending → k ∈ i.bridge.pending := by
    intro k hk
    rw [hpending] at hk
    exact (AList.mem_erase.mp hk).2
  refine ⟨hrequests ▸ h.distinct, fun call hcall => ?_, fun k hk => ?_, h.nested,
    fun k hk hmem => h.inside k hk (hsub hmem)⟩
  · rw [show _ = _ from hrequests] at hcall
    change call.id ∈ bridge.pending
    rw [hpending]
    refine AList.mem_erase.mpr ⟨?_, h.requested call hcall⟩
    rintro rfl
    exact hid (List.mem_map_of_mem hcall)
  · change k ≤ bridge.count
    rw [hcount]
    exact h.counted k (hk.imp_left hsub)

theorem Recorded.forget (h : Recorded i) {value : Json}
    (hsolicited : ∀ id ∈ completionId? value, id ∉ i.bridge.requests.map Call.id) :
    Recorded { i with bridge := i.bridge.forget value } := by
  unfold Closure.forget
  cases hid : completionId? value with
  | none => exact h.congr rfl rfl
  | some id => exact h.erase (hsolicited id hid) _ rfl rfl rfl

/-- A call takes a new id. -/
theorem Recorded.enter (h : Recorded i) (name : Option Bytes) (measured : ℕ) :
    Recorded { i with
      bridge := (i.bridge.enter cfg name measured).1
      inside := (i.bridge.enter cfg name measured).2.toList ++ i.inside } := by
  obtain ⟨fatal, hbridge, -, hcall, -⟩ := i.bridge.enter_cases cfg name measured
  have hbeyond : ∀ id, id ∈ i.bridge.pending ∨ id ∈ i.inside.map Prod.fst →
      id ≠ i.bridge.count + 1 := fun id hid => Nat.ne_of_lt (Nat.lt_succ_of_le (h.counted id hid))
  rw [hbridge]
  cases hentered : (i.bridge.enter cfg name measured).2 with
  | none =>
    exact ⟨h.distinct, h.requested, fun id hid => Nat.le_succ_of_le (h.counted id hid), h.nested,
      h.inside⟩
  | some call =>
    have hid := (hcall call hentered).id
    refine ⟨h.distinct, h.requested, ?_, ?_, ?_⟩
    · rintro id (hpending | hinside)
      · exact Nat.le_succ_of_le (h.counted id (.inl hpending))
      · rcases List.mem_cons.mp hinside with rfl | hinside
        · exact hid.le
        · exact Nat.le_succ_of_le (h.counted id (.inr hinside))
    · refine List.nodup_cons.mpr ⟨fun hmem => ?_, h.nested⟩
      exact hbeyond _ (.inr hmem) hid
    · intro id hmem
      rcases List.mem_cons.mp hmem with rfl | hmem
      · exact fun hpending => hbeyond _ (.inl hpending) hid
      · exact h.inside id hmem

/-- A call comes back from `stringify`. -/
theorem Recorded.leave (h : Recorded i) {id : ℕ} {name : Bytes} {inside : List (ℕ × Bytes)}
    (hinside : i.inside = (id, name) :: inside) (json : Option Bytes) (measured : ℕ) :
    Recorded { i with bridge := i.bridge.leave cfg id name json measured, inside } := by
  have hnested := h.nested
  rw [hinside, List.map_cons, List.nodup_cons] at hnested
  have hmem : ∀ k, k ∈ inside.map Prod.fst → k ∈ i.inside.map Prod.fst := by
    intro k hk
    rw [hinside]
    exact List.mem_cons_of_mem _ hk
  have hid : id ∈ i.inside.map Prod.fst := by
    rw [hinside]
    exact List.mem_cons_self
  have hrest : Recorded { i with inside } :=
    ⟨h.distinct, h.requested, fun k hk => h.counted k (hk.imp_right (hmem k)), hnested.2,
      fun k hk => h.inside k (hmem k hk)⟩
  cases json with
  | none => exact hrest
  | some json =>
    simp only [Closure.leave]
    split_ifs
    · exact ⟨hrest.distinct, hrest.requested, hrest.counted, hrest.nested, hrest.inside⟩
    · have hfresh : id ∉ i.bridge.requests.map Call.id := by
        intro hmem
        obtain ⟨call, hcall, heq⟩ := List.mem_map.mp hmem
        exact h.inside id hid (heq ▸ h.requested call hcall)
      refine ⟨?_, fun call hcall => ?_, fun k hk => ?_, hnested.2, fun k hk hpending => ?_⟩
      · rw [List.map_append, List.nodup_append]
        refine ⟨h.distinct, List.nodup_singleton _, fun a ha b hb => ?_⟩
        rw [List.mem_singleton.mp hb]
        rintro rfl
        exact hfresh ha
      · rcases List.mem_append.mp hcall with hold | hnew
        · exact (AList.mem_insert _).mpr (.inr (h.requested call hold))
        · obtain rfl := List.mem_singleton.mp hnew
          exact (AList.mem_insert _).mpr (.inl rfl)
      · rcases hk with hpending | hk
        · rcases (AList.mem_insert _).mp hpending with rfl | hold
          · exact h.counted _ (.inr hid)
          · exact h.counted k (.inl hold)
        · exact h.counted k (.inr (hmem k hk))
      · rcases (AList.mem_insert _).mp hpending with rfl | hold
        · exact hnested.1 hk
        · exact h.inside k (hmem k hk) hold

/-- **What is recorded** stays in order, whatever the guest does. -/
theorem Recorded.act (h : Recorded i) {l : Label} (hsolicited : Solicited i l)
    (hact : i.act cfg serde l = some j) : Recorded j := by
  cases act_cases hact with
  | @enter name measured => exact h.enter name measured
  | @leave json measured id name inside hruns hinside => exact h.leave hinside json measured
  | settle hphase hinside hsettle =>
    obtain ⟨id, call, settlement, hid, -, rfl⟩ := Closure.settle_cases hsettle
    simp only [Solicited, hphase] at hsolicited
    exact (h.erase (hsolicited id hid)
      { i.bridge with
        pending := i.bridge.pending.erase id
        settled := i.bridge.settled ++ [(call, settlement)] } rfl rfl rfl).congr rfl rfl
  | unsettled hphase hinside =>
    simp only [Solicited, hphase] at hsolicited
    exact (h.forget hsolicited).congr rfl rfl
  | @thrown removed message value values hphase hinside =>
    cases removed with
    | true =>
      simp only [Solicited, hphase] at hsolicited
      exact (h.forget hsolicited).congr rfl rfl
    | false => exact h.congr rfl rfl
  | @report root =>
    rw [report_eq]
    exact ⟨List.nodup_nil, nofun, h.counted, h.nested, h.inside⟩
  | _ => exact h.congr rfl rfl

/-! ### The quota -/

/-- The requests at hand are pending calls. -/
theorem Recorded.requests_le (h : Recorded i) :
    i.bridge.requests.length ≤ i.bridge.pending.keys.length := by
  have hsub : i.bridge.requests.map Call.id ⊆ i.bridge.pending.keys := by
    intro id hid
    obtain ⟨call, hcall, rfl⟩ := List.mem_map.mp hid
    exact h.requested call hcall
  have hle := (h.distinct.subperm hsub).length_le
  rwa [List.length_map] at hle

theorem length_keys_forget_le (b : Closure) (value : Json) :
    (b.forget value).pending.keys.length ≤ b.pending.keys.length := by
  unfold Closure.forget
  split
  · exact AList.length_keys_erase_le _ _
  · exact le_rfl

/-- The states that the bridge returns carry requests that are pending. -/
theorem Within.emit (hwithin : Within cfg i) (done : Bool) :
    Within cfg (i.emit done) := by
  refine ⟨hwithin.pending, Nat.zero_le _, fun state hstate => ?_⟩
  rcases List.mem_append.mp hstate with hold | hnew
  · exact hwithin.emitted state hold
  · obtain rfl := List.mem_singleton.mp hnew
    cases done with
    | true => exact Nat.zero_le _
    | false => exact hwithin.requests

/-- Fewer pending calls, and the states as they were, are within the quota still. -/
theorem Within.mono (hwithin : Within cfg i) (h : Recorded j)
    (hpending : j.bridge.pending.keys.length ≤ i.bridge.pending.keys.length)
    (hemitted : j.emitted = i.emitted) : Within cfg j :=
  ⟨hpending.trans hwithin.pending, h.requests_le.trans (hpending.trans hwithin.pending),
    hemitted ▸ hwithin.emitted⟩

/-- **One step.** Within the quota a step stays there exactly if a call that it records finds
room. -/
theorem within_act_iff (hwithin : Within cfg i) (h : Recorded i) {l : Label}
    (hsolicited : Solicited i l) (hact : i.act cfg serde l = some j) :
    Within cfg j ↔ Room cfg i l := by
  have hj := h.act hsolicited hact
  -- only a call that comes back with a text can make the pending calls more
  have hquiet : Room cfg i l → (j.bridge.pending.keys.length ≤ i.bridge.pending.keys.length) →
      j.emitted = i.emitted → (Within cfg j ↔ Room cfg i l) :=
    fun hroom hpending hemitted => iff_of_true (hwithin.mono hj hpending hemitted) hroom
  cases act_cases hact with
  | @enter name measured =>
    obtain ⟨fatal, hbridge, -⟩ := i.bridge.enter_cases cfg name measured
    exact hquiet trivial (by rw [hbridge]) rfl
  | @leave json measured id name inside hruns hinside =>
    have hid : id ∉ i.bridge.pending := h.inside id (by rw [hinside]; exact List.mem_cons_self)
    cases json with
    | none => exact hquiet trivial le_rfl rfl
    | some json =>
      by_cases hlong : cfg.maxInput < measured
      · refine hquiet (fun hle => absurd hle (Nat.not_le.mpr hlong)) ?_ rfl
        simp only [Closure.leave, hlong, if_true]
        exact le_rfl
      · have hlength : (i.bridge.leave cfg id name (some json) measured).pending.keys.length =
            i.bridge.pending.keys.length + 1 := by
          simp only [Closure.leave, hlong, if_false]
          exact AList.length_keys_insert hid
        constructor
        · intro hafter hle
          have hpending := hafter.pending
          rw [show _ = _ from hlength] at hpending
          exact hpending
        · intro hroom
          have hlt := hroom (Nat.not_lt.mp hlong)
          have hpending : (i.bridge.leave cfg id name (some json) measured).pending.keys.length ≤
              cfg.maxConcurrency := by omega
          exact ⟨hpending, hj.requests_le.trans hpending, hwithin.emitted⟩
  | settle hphase hinside hsettle =>
    obtain ⟨id, call, settlement, -, -, rfl⟩ := Closure.settle_cases hsettle
    exact hquiet trivial (AList.length_keys_erase_le id _) rfl
  | unsettled => exact hquiet trivial (length_keys_forget_le _ _) rfl
  | @thrown removed =>
    cases removed with
    | true => exact hquiet trivial (length_keys_forget_le _ _) rfl
    | false => exact hquiet trivial le_rfl rfl
  | @report root =>
    rw [report_eq]
    have hemit := hwithin.emit root.done
    exact iff_of_true ⟨hemit.pending, hemit.requests, hemit.emitted⟩ trivial
  | _ => exact hquiet trivial le_rfl rfl

theorem recorded_start (h : i = .start ∨ i = { Instance.start with phase := .idle }) :
    Recorded i ∧ Within cfg i := by
  have hnone : ∀ id, id ∈ Closure.start.pending ∨ id ∈ ([] : List ℕ) → id ≤ 0 := by
    rintro id (hid | hid)
    · exact absurd hid (AList.notMem_empty id)
    · cases hid
  rcases h with rfl | rfl
  · exact ⟨⟨List.nodup_nil, nofun, hnone, List.nodup_nil, nofun⟩,
      ⟨Nat.zero_le _, Nat.zero_le _, nofun⟩⟩
  · exact ⟨⟨List.nodup_nil, nofun, hnone, List.nodup_nil, nofun⟩,
      ⟨Nat.zero_le _, Nat.zero_le _, nofun⟩⟩

/-! ### Calls within calls -/

/-- A call that stringifies its argument: the room that it saw when it was checked, and how many
calls have been recorded since, from within its argument. -/
structure Nesting where
  room : ℕ
  recorded : ℕ

/-- One more call has been recorded within. -/
def Nesting.record (n : Nesting) : Nesting := { n with recorded := n.recorded + 1 }

/-- An instance with an account of the calls that stringify their argument, the innermost first. -/
structure Accounted where
  provider : Instance
  nestings : List Nesting

namespace Accounted

variable (cfg : Config) (serde : Bytes → Except Bytes Json) (s : Accounted)

/-- The account after a label. A call that passes the checks opens an entry; one that comes back
closes it, and counts in the entries of the calls that it is within if it is recorded. -/
def account : Label → List Nesting
  | .enter name measured =>
    match (s.provider.bridge.enter cfg name measured).2 with
    | some _ => ⟨cfg.maxConcurrency - s.provider.bridge.pending.keys.length, 0⟩ :: s.nestings
    | none => s.nestings
  | .leave (some _) measured =>
    if measured ≤ cfg.maxInput then s.nestings.tail.map Nesting.record else s.nestings.tail
  | .leave none _ => s.nestings.tail
  | _ => s.nestings

/-- One step, with the account. -/
def step (l : Label) : Option Accounted :=
  (s.provider.act cfg serde l).map fun provider => ⟨provider, s.account cfg l⟩

/-- A call that is recorded has seen more room than the calls within it have taken. -/
def Contained : Label → Prop
  | .leave (some _) measured =>
    measured ≤ cfg.maxInput → ∀ n ∈ s.nestings.head?, n.recorded < n.room
  | _ => True

/-- The runs in which the calls within a call leave it room. -/
def contained : System Accounted Label :=
  (System.ofStep
    (fun s => (s.provider = .start ∨ s.provider = { Instance.start with phase := .idle }) ∧
      s.nestings = [])
    fun s l => s.step cfg serde l).restrict
      fun s l _ => Solicited s.provider l ∧ s.Contained cfg l

variable {cfg serde s} {t : Accounted}

/-- **The account balances**: the pending calls are those that a call saw and those that were
recorded within it. -/
structure Balanced (cfg : Config) (s : Accounted) : Prop where
  length : s.nestings.length = s.provider.inside.length
  balance : ∀ n ∈ s.nestings,
    s.provider.bridge.pending.keys.length + n.room = cfg.maxConcurrency + n.recorded

/-- The account and the pending calls are as they were. -/
theorem Balanced.congr (h : Balanced cfg s) {provider : Instance}
    (hinside : provider.inside = s.provider.inside)
    (hpending : s.provider.inside ≠ [] → provider.bridge.pending = s.provider.bridge.pending) :
    Balanced cfg ⟨provider, s.nestings⟩ := by
  refine ⟨hinside ▸ h.length, fun n hn => ?_⟩
  have hne : s.provider.inside ≠ [] := by
    rw [← List.length_pos_iff, ← h.length]
    exact List.length_pos_of_mem hn
  rw [hpending hne]
  exact h.balance n hn

/-- A call is checked. -/
theorem Balanced.enter (h : Balanced cfg s) (name : Option Bytes) (measured : ℕ) :
    Balanced cfg ⟨{ s.provider with
      bridge := (s.provider.bridge.enter cfg name measured).1
      inside := (s.provider.bridge.enter cfg name measured).2.toList ++ s.provider.inside },
        s.account cfg (.enter name measured)⟩ := by
  obtain ⟨fatal, hbridge, -, hcall, -⟩ := s.provider.bridge.enter_cases cfg name measured
  rw [hbridge, account]
  cases hentered : (s.provider.bridge.enter cfg name measured).2 with
  | none => exact h.congr rfl fun _ => rfl
  | some call =>
    have hroom := (hcall call hentered).room
    refine ⟨congrArg (· + 1) h.length, List.forall_mem_cons.mpr ⟨?_, h.balance⟩⟩
    change s.provider.bridge.pending.keys.length +
      (cfg.maxConcurrency - s.provider.bridge.pending.keys.length) = cfg.maxConcurrency + 0
    omega

/-- A call comes back from `stringify`. -/
theorem Balanced.leave (h : Balanced cfg s) (hrecorded : Recorded s.provider) {id : ℕ}
    {name : Bytes} {inside : List (ℕ × Bytes)} (hinside : s.provider.inside = (id, name) :: inside)
    (json : Option Bytes) (measured : ℕ) :
    Balanced cfg ⟨{ s.provider with
      bridge := s.provider.bridge.leave cfg id name json measured, inside },
        s.account cfg (.leave json measured)⟩ := by
  have hlength : s.nestings.tail.length = inside.length := by
    rw [List.length_tail, h.length, hinside, List.length_cons, Nat.add_sub_cancel]
  have hquiet : ∀ bridge : Closure, bridge.pending = s.provider.bridge.pending →
      Balanced cfg ⟨{ s.provider with bridge, inside }, s.nestings.tail⟩ := by
    intro bridge hpending
    refine ⟨hlength, fun n hn => ?_⟩
    dsimp only
    rw [hpending]
    exact h.balance n (List.mem_of_mem_tail hn)
  cases json with
  | none => exact hquiet _ rfl
  | some json =>
    by_cases hfits : measured ≤ cfg.maxInput
    · have hid : id ∉ s.provider.bridge.pending :=
        hrecorded.inside id (by rw [hinside]; exact List.mem_cons_self)
      simp only [Closure.leave, account, if_neg (Nat.not_lt.mpr hfits), if_pos hfits]
      refine ⟨by rw [List.length_map, hlength], fun n hn => ?_⟩
      obtain ⟨m, hm, rfl⟩ := List.mem_map.mp hn
      have hbalance := h.balance m (List.mem_of_mem_tail hm)
      change (s.provider.bridge.pending.insert id ⟨id, name, json⟩).keys.length + m.room =
        cfg.maxConcurrency + (m.recorded + 1)
      rw [AList.length_keys_insert hid]
      omega
    · simp only [Closure.leave, account, if_pos (Nat.not_le.mp hfits), if_neg hfits]
      exact hquiet _ rfl

/-- **One step.** -/
theorem Balanced.step (h : Balanced cfg s) (hrecorded : Recorded s.provider) {l : Label}
    (hstep : s.step cfg serde l = some t) : Balanced cfg t := by
  obtain ⟨provider, hact, rfl⟩ := Option.map_eq_some_iff.mp hstep
  cases act_cases hact with
  | @enter name measured => exact h.enter name measured
  | @leave json measured id name inside hruns hinside =>
    exact h.leave hrecorded hinside json measured
  -- a completion is delivered between calls
  | settle hphase hinside => exact h.congr rfl fun hne => absurd hinside hne
  | unsettled hphase hinside => exact h.congr rfl fun hne => absurd hinside hne
  | thrown hphase hinside => exact h.congr rfl fun hne => absurd hinside hne
  | report =>
    rw [report_eq]
    exact h.congr rfl fun _ => rfl
  | _ => exact h.congr rfl fun _ => rfl

/-- With the account balanced, there is room exactly if the calls within have left it. -/
theorem Balanced.room_iff (h : Balanced cfg s) {l : Label}
    (hact : s.provider.act cfg serde l = some i) :
    Room cfg s.provider l ↔ s.Contained cfg l := by
  cases act_cases hact with
  | @leave json measured id name inside hruns hinside =>
    cases json with
    | none => exact Iff.rfl
    | some json =>
      have hlength := h.length
      rw [hinside, List.length_cons] at hlength
      obtain ⟨n, nestings, hnestings⟩ := List.exists_cons_of_length_eq_add_one hlength
      have hbalance := h.balance n (by rw [hnestings]; exact List.mem_cons_self)
      simp only [Room, Contained, hnestings, List.head?_cons, Option.mem_def, Option.some_inj,
        forall_eq']
      exact imp_congr_right fun _ => by omega
  | _ => exact Iff.rfl

/-- What holds while the calls within a call leave it room. -/
theorem sound_of_contained (h : (contained cfg serde).Reachable s) :
    Balanced cfg s ∧ Recorded s.provider ∧ Within cfg s.provider := by
  have hind : (contained cfg serde).Inductive fun s =>
      Balanced cfg s ∧ Recorded s.provider ∧ Within cfg s.provider := by
    refine ⟨fun s hs => ?_, fun s l t hs hstep => ?_⟩
    · obtain ⟨hprovider, hnestings⟩ := hs
      refine ⟨⟨?_, by rw [hnestings]; nofun⟩, recorded_start hprovider⟩
      rw [hnestings]
      rcases hprovider with h | h <;> rw [h] <;> rfl
    · obtain ⟨hbalanced, hrecorded, hwithin⟩ := hs
      obtain ⟨hstep, hsolicited, hcontained⟩ := hstep
      have hbalanced' := hbalanced.step hrecorded hstep
      obtain ⟨provider, hact, rfl⟩ := Option.map_eq_some_iff.mp hstep
      have hroom := (hbalanced.room_iff hact).mpr hcontained
      exact ⟨hbalanced', hrecorded.act hsolicited hact,
        (within_act_iff hwithin hrecorded hsolicited hact).mpr hroom⟩
  exact hind.of_reachable h

/-! ### Calls one after the other -/

/-- The runs without calls within calls. -/
def sequential (cfg : Config) (serde : Bytes → Except Bytes Json) : System Instance Label :=
  (system cfg serde).restrict fun i l _ => Solicited i l ∧ Sequential i l

/-- The account of a run without calls within calls: at most one call stringifies, it has seen room,
and nothing has been recorded since. -/
structure Single (s : Accounted) : Prop where
  inside : s.provider.inside.length ≤ 1
  nestings : s.nestings.length = s.provider.inside.length
  room : ∀ n ∈ s.nestings, n.recorded = 0 ∧ 0 < n.room

theorem Single.contained (h : Single s) (l : Label) : s.Contained cfg l := by
  cases l with
  | leave json measured =>
    cases json with
    | none => trivial
    | some json =>
      intro _ n hn
      obtain ⟨hrecorded, hroom⟩ := h.room n (List.mem_of_mem_head? hn)
      omega
  | _ => trivial

/-- One step in such a run. -/
theorem Single.step (h : Single s) {l : Label} (hsequential : Sequential s.provider l)
    (hstep : s.step cfg serde l = some t) : Single t := by
  obtain ⟨provider, hact, rfl⟩ := Option.map_eq_some_iff.mp hstep
  cases act_cases hact with
  | @enter name measured =>
    obtain ⟨fatal, hbridge, -, hcall, -⟩ := s.provider.bridge.enter_cases cfg name measured
    have hnone : s.provider.inside = [] := hsequential
    have hnestings : s.nestings = [] := by
      rw [← List.length_eq_zero_iff, h.nestings, hnone, List.length_nil]
    simp only [account, hnone, hnestings, List.append_nil]
    cases hentered : (s.provider.bridge.enter cfg name measured).2 with
    | none => exact ⟨Nat.zero_le _, rfl, nofun⟩
    | some call =>
      have hroom := (hcall call hentered).room
      refine ⟨le_rfl, rfl, List.forall_mem_singleton.mpr ⟨rfl, ?_⟩⟩
      exact Nat.sub_pos_of_lt hroom
  | @leave json measured id name inside hruns hinside =>
    have hone := h.inside
    have hlength := h.nestings
    rw [hinside, List.length_cons] at hone hlength
    obtain rfl : inside = [] := List.eq_nil_of_length_eq_zero (by omega)
    have htail : s.nestings.tail = [] := by
      rw [← List.length_eq_zero_iff, List.length_tail, hlength]
      rfl
    have haccount : s.account cfg (.leave json measured) = [] := by
      cases json with
      | none => exact htail
      | some json => simp only [account, htail, List.map_nil, ite_self]
    rw [haccount]
    exact ⟨Nat.zero_le _, rfl, nofun⟩
  | report =>
    rw [report_eq]
    exact ⟨h.inside, h.nestings, h.room⟩
  | _ => exact ⟨h.inside, h.nestings, h.room⟩

/-- Without calls within calls there is always room: while a call stringifies, nothing else is
recorded. -/
theorem contained_of_sequential (h : (sequential cfg serde).Reachable i) :
    ∃ nestings, (contained cfg serde).Reachable ⟨i, nestings⟩ ∧ Single ⟨i, nestings⟩ := by
  induction h with
  | init hi =>
    refine ⟨[], .init ⟨hi, rfl⟩, ?_⟩
    rcases hi with rfl | rfl <;> exact ⟨Nat.zero_le _, rfl, nofun⟩
  | @step i j l hreach hstep ih =>
    obtain ⟨nestings, hcontained, hsingle⟩ := ih
    obtain ⟨hact, hsolicited, hsequential⟩ := hstep
    have hnext : step cfg serde ⟨i, nestings⟩ l = some ⟨j, account cfg ⟨i, nestings⟩ l⟩ :=
      Option.map_eq_some_iff.mpr ⟨j, hact, rfl⟩
    exact ⟨_, hcontained.step ⟨hnext, hsolicited, hsingle.contained l⟩,
      hsingle.step hsequential hnext⟩

end Accounted

/-! ### The quota in every run -/

open Accounted

/-- **The concurrency quota.** In a run that is sent completions only for calls that it has handed
over, the quota holds as long as the calls within a call leave it room, and the first call that they
leave none breaks it; without calls within calls they always do. A call that finds the quota used up
leaves the bridge fatal and records nothing. -/
theorem concurrency_quota (cfg : Config) (serde : Bytes → Except Bytes Json) :
    (∀ s, (contained cfg serde).Reachable s →
      Within cfg s.provider ∧
      (∀ l t, Solicited s.provider l → s.step cfg serde l = some t →
        (Within cfg t.provider ↔ s.Contained cfg l)) ∧
      ∀ name measured t, s.step cfg serde (.enter name measured) = some t →
        cfg.maxConcurrency ≤ s.provider.bridge.pending.keys.length →
          t.provider.bridge.fatal = true ∧
            t.provider.bridge.pending = s.provider.bridge.pending ∧
              t.provider.bridge.requests = s.provider.bridge.requests ∧
                t.provider.inside = s.provider.inside) ∧
    ∀ i, (sequential cfg serde).Reachable i →
      Within cfg i ∧ ∃ nestings, (contained cfg serde).Reachable ⟨i, nestings⟩ := by
  refine ⟨fun s h => ?_, fun i h => ?_⟩
  · obtain ⟨hbalanced, hrecorded, hwithin⟩ := sound_of_contained h
    refine ⟨hwithin, fun l t hsolicited hstep => ?_, fun name measured t hstep hfull => ?_⟩
    · obtain ⟨provider, hact, rfl⟩ := Option.map_eq_some_iff.mp hstep
      exact (within_act_iff hwithin hrecorded hsolicited hact).trans (hbalanced.room_iff hact)
    · obtain ⟨provider, hact, rfl⟩ := Option.map_eq_some_iff.mp hstep
      cases act_cases hact with
      | enter hruns =>
        obtain ⟨fatal, hbridge, -, -, hover⟩ := s.provider.bridge.enter_cases cfg name measured
        obtain ⟨rfl, hnone⟩ := hover hfull
        rw [hbridge, hnone]
        exact ⟨rfl, rfl, rfl, rfl⟩
  · obtain ⟨nestings, hcontained, -⟩ := contained_of_sequential h
    exact ⟨(sound_of_contained hcontained).2.2, nestings, hcontained⟩

instance (i : Instance) (l : Label) : Decidable (Solicited i l) := by
  unfold Solicited
  split <;> try infer_instance
  all_goals split <;> infer_instance

instance (cfg : Config) (s : Accounted) (l : Label) : Decidable (s.Contained cfg l) := by
  unfold Accounted.Contained
  split <;> infer_instance

/-- A guest that makes a call within another one, and waits. -/
def nestedCalls : List Label :=
  [.enter (some (utf8 "echo")) 4, .enter (some (utf8 "echo")) 4, .leave (some (utf8 "9")) 1,
    .leave (some (utf8 "23")) 2, .saved, .step (utf8 "[]") [], .deliver, .root .pending, .report]

/-- With the default quota the call within leaves the outer one room. -/
theorem concurrency_quota_nested : ∃ s : Accounted,
    s.provider.bridge.pending.keys = [1, 2] ∧ Within echoConfig s.provider := by
  have hrun : (System.trace (Accounted.step echoConfig readJson)
      (fun s l => Solicited s.provider l ∧ s.Contained echoConfig l) ⟨.start, []⟩ nestedCalls).map
        (·.provider.bridge.pending.keys) = some [1, 2] := by decide +kernel
  obtain ⟨s, hs, hkeys⟩ := Option.map_eq_some_iff.mp hrun
  have hreachable : (contained echoConfig readJson).Reachable s :=
    System.reachable_of_trace ⟨.inl rfl, rfl⟩ hs
  exact ⟨s, hkeys, ((concurrency_quota echoConfig readJson).1 s hreachable).1⟩

/-- One call at a time. -/
def oneAtATime : Budgets where
  value
    | .maxCallbackConcurrency => 1
    | key => key.builtinDefault
  minimum_le key := by cases key <;> decide
  le_maximum key := by cases key <;> decide

/-- A run with one call at a time. -/
def singleConfig : Config :=
  { echoConfig with limits := { echoConfig.limits with budgets := oneAtATime } }

/-- **The quota is exceeded** with a limit of one: both calls pass the check before either is
recorded, and the state carries two requests without being fatal. -/
theorem quota_exceeded : ∃ i, ((system singleConfig readJson).restrict fun i l _ =>
    Solicited i l).Reachable i ∧ singleConfig.maxConcurrency = 1 ∧
      i.bridge.pending.keys.length = 2 ∧ i.emitted.map (·.requests.length) = [2] ∧
      i.bridge.fatal = false ∧ ¬ Within singleConfig i := by
  have hrun : (System.trace (act singleConfig readJson) Solicited .start nestedCalls).map
      (fun i => (i.bridge.pending.keys.length, i.emitted.map (·.requests.length),
        i.bridge.fatal)) = some (2, [2], false) := by decide +kernel
  obtain ⟨i, hi, heq⟩ := Option.map_eq_some_iff.mp hrun
  simp only [Prod.mk.injEq] at heq
  obtain ⟨hpending, hemitted, hfatal⟩ := heq
  refine ⟨i, System.reachable_of_trace (.inl rfl) hi, rfl, hpending, hemitted, hfatal,
    fun hwithin => ?_⟩
  have hle : i.bridge.pending.keys.length ≤ 1 := hwithin.pending
  omega

end Instance

end Javex.Bridge
