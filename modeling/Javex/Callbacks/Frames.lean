import Javex.Callbacks.Broker

/-!
# The limits on a frame

What a broker asks of a frame, said of the frame as a whole: its length, its list of requests and,
for each request in its place, the ids seen and the jobs running by then. `dispatchRequests`
checks them one request after the other, and stops where the first is not met.

* `frameFits_iff`: a frame is served in full exactly if it keeps within the limits.

The source checks a frame as it goes: a request is refused for what has been accepted before it in
the same frame too, and the requests before it are already running then. `FrameFits` says the same
of the list as a whole, by the place at which a request stands. It is what a reader of the quotas
has in mind, and the equivalence is by induction on the list of requests.
-/

namespace Javex.Callbacks

open Codec

variable {cfg : Config}

/-- The request is for a host function that is granted. -/
def Request.granted (cfg : Config) (request : Request) : Bool :=
  (cfg.limits.callbacks.lookup request.name).isSome

/-- The limits on the requests of a frame, for a broker that has seen these ids and has this many
jobs. -/
structure Within (cfg : Config) (seen : Finset ℕ) (running : ℕ) (requests : List Request) :
    Prop where
  sound : ∀ r ∈ requests, r.Sound cfg
  fresh : ∀ r ∈ requests, r.id ∉ seen
  distinct : (requests.map Request.id).Nodup
  quotas : ∀ before r after, requests = before ++ r :: after →
    seen.card + before.length < cfg.maxCalls ∧
      running + before.countP (Request.granted cfg) < cfg.maxConcurrency
  denials : ∀ r ∈ requests, r.granted cfg = false → cfg.DenialFits

/-- The limits on a frame. -/
structure FrameFits (cfg : Config) (state : State) (bytes : Bytes) : Prop where
  length_le : bytes.length ≤ cfg.maxFrame
  within : ∃ json jsons requests, cfg.jason.decode bytes = some json ∧
    json.get (utf8 "requests") = some (.arr jsons) ∧ jsons.length ≤ cfg.maxConcurrency ∧
      List.Forall₂ IsRequest jsons requests ∧
        Within cfg state.seen state.jobs.keys.length requests

/-! ### One request after the other -/

theorem within_nil (seen : Finset ℕ) (running : ℕ) : Within cfg seen running [] where
  sound := nofun
  fresh := nofun
  distinct := List.nodup_nil
  quotas before r after h := by simp at h
  denials := nofun

theorem within_cons {seen : Finset ℕ} {running : ℕ} {r : Request} {requests : List Request} :
    Within cfg seen running (r :: requests) ↔
      (r.Sound cfg ∧ r.id ∉ seen ∧ seen.card < cfg.maxCalls ∧ running < cfg.maxConcurrency ∧
        (r.granted cfg = false → cfg.DenialFits)) ∧
      Within cfg (insert r.id seen) (running + if r.granted cfg then 1 else 0) requests := by
  constructor
  · intro h
    obtain ⟨hnot, hdistinct⟩ := List.nodup_cons.mp h.distinct
    have hfresh := h.fresh r List.mem_cons_self
    have hhead := h.quotas [] r requests rfl
    refine ⟨⟨h.sound r List.mem_cons_self, hfresh, hhead.1, hhead.2,
      h.denials r List.mem_cons_self⟩, ?_⟩
    refine ⟨fun s hs => h.sound s (List.mem_cons_of_mem _ hs), fun s hs => ?_, hdistinct,
      fun before s after heq => ?_, fun s hs => h.denials s (List.mem_cons_of_mem _ hs)⟩
    · rw [Finset.mem_insert, not_or]
      exact ⟨fun heq => hnot (heq ▸ List.mem_map_of_mem hs), h.fresh s (List.mem_cons_of_mem _ hs)⟩
    · have hquotas := h.quotas (r :: before) s after (by rw [heq, List.cons_append])
      rw [List.length_cons, List.countP_cons] at hquotas
      rw [Finset.card_insert_of_notMem hfresh]
      omega
  · rintro ⟨⟨hsound, hfresh, hcalls, hroom, hdenial⟩, h⟩
    refine ⟨List.forall_mem_cons.mpr ⟨hsound, h.sound⟩, List.forall_mem_cons.mpr ⟨hfresh, ?_⟩,
      List.nodup_cons.mpr ⟨?_, h.distinct⟩, fun before s after heq => ?_,
      List.forall_mem_cons.mpr ⟨hdenial, h.denials⟩⟩
    · exact fun s hs hmem => h.fresh s hs (Finset.mem_insert_of_mem hmem)
    · intro hmem
      obtain ⟨s, hs, hid⟩ := List.mem_map.mp hmem
      exact h.fresh s hs (hid ▸ Finset.mem_insert_self _ _)
    · cases before with
      | nil => exact ⟨hcalls, hroom⟩
      | cons t before =>
        obtain ⟨rfl, htail⟩ := List.cons.inj heq
        have hquotas := h.quotas before s after htail
        rw [Finset.card_insert_of_notMem hfresh] at hquotas
        rw [List.length_cons, List.countP_cons]
        omega

variable {clock : ℕ → ℤ} {state state' : State} {effects : List Effect}

/-- Processes are numbered as they are started. -/
def State.Numbered (state : State) : Prop := ∀ pid ∈ state.jobs, pid < state.spawned

/-- The quotas after a request that has been served. -/
theorem dispatchRequest_next (hjason : cfg.jason.Lawful) (hnumbered : state.Numbered) {json : Json}
    (h : dispatchRequest cfg clock state json = .ok (effects, state')) :
    ∃ request, IsRequest json request ∧ Accepts cfg state request ∧
      (request.granted cfg = false → cfg.DenialFits) ∧ state'.Numbered ∧
      state'.seen = insert request.id state.seen ∧
      state'.jobs.keys.length =
        state.jobs.keys.length + if request.granted cfg then 1 else 0 := by
  obtain ⟨request, hjson, haccepts, hgranting⟩ := dispatchRequest_cases hjason h
  obtain ⟨callback, hcallback, heq⟩ | ⟨hcallback, hfits, -, -, -, heq⟩ := hgranting
  · obtain ⟨-, rfl⟩ := Prod.mk.inj heq
    have hgranted : request.granted cfg = true := by rw [Request.granted, hcallback]; rfl
    have hnot : state.spawned ∉ state.jobs.keyset := fun hmem =>
      Nat.lt_irrefl _ (hnumbered _ hmem)
    refine ⟨request, hjson, haccepts, fun hno => ?_, fun pid hpid => ?_, rfl, ?_⟩
    · rw [hgranted] at hno
      cases hno
    · rcases (AList.mem_insert _).mp hpid with rfl | hold
      · exact Nat.lt_succ_self _
      · exact Nat.lt_succ_of_lt (hnumbered pid hold)
    · rw [hgranted, if_pos rfl, ← AList.card_keyset, ← AList.card_keyset]
      exact (congrArg Finset.card (AList.keyset_insert _ _ _)).trans
        (Finset.card_insert_of_notMem hnot)
  · subst heq
    have hgranted : request.granted cfg = false := by rw [Request.granted, hcallback]; rfl
    exact ⟨request, hjson, haccepts, fun _ => hfits, hnumbered, rfl, by rw [hgranted]; rfl⟩

/-- A JSON value is at most one request. -/
theorem IsRequest.unique {json : Json} {r s : Request} (hr : IsRequest json r)
    (hs : IsRequest json s) (hrs : r.Sound cfg) (hss : s.Sound cfg) : r = s := by
  obtain ⟨rid, rname, rtext, rargument⟩ := r
  obtain ⟨sid, sname, stext, sargument⟩ := s
  cases hr.1.symm.trans hs.1
  cases hr.2.1.symm.trans hs.2.1
  cases hr.2.2.symm.trans hs.2.2
  cases hrs.decoded.symm.trans hss.decoded
  rfl

/-- A batch is served in full exactly if its requests keep within the limits. -/
theorem within_iff (hjason : cfg.jason.Lawful) (hnumbered : state.Numbered) (jsons : List Json) :
    (∃ requests, List.Forall₂ IsRequest jsons requests ∧
        Within cfg state.seen state.jobs.keys.length requests) ↔
      (dispatchBatch cfg clock state jsons).2.2 = none := by
  induction jsons generalizing state with
  | nil => exact ⟨fun _ => rfl, fun _ => ⟨[], .nil, within_nil _ _⟩⟩
  | cons json jsons ih =>
    unfold dispatchBatch
    constructor
    · rintro ⟨requests, hforall, hwithin⟩
      cases hforall with
      | cons hjson htail =>
        rename_i request requests
        obtain ⟨⟨hsound, hfresh, hcalls, hroom, hdenial⟩, hrest⟩ := within_cons.mp hwithin
        obtain ⟨effects, state', hok⟩ := dispatchRequest_ok hjason clock hjson
          ⟨hsound, hfresh, hcalls, hroom⟩ fun hnone => hdenial (by rw [Request.granted, hnone]; rfl)
        obtain ⟨request', hjson', haccepts, -, hnumbered', hseen, hjobs⟩ :=
          dispatchRequest_next hjason hnumbered hok
        obtain rfl := hjson.unique hjson' hsound haccepts.toSound
        rw [hok]
        refine (ih hnumbered').mp ⟨requests, htail, ?_⟩
        rw [hseen, hjobs]
        exact hrest
    · intro h
      split at h
      · rename_i effects state' hok
        obtain ⟨request, hjson, haccepts, hdenial, hnumbered', hseen, hjobs⟩ :=
          dispatchRequest_next hjason hnumbered hok
        obtain ⟨requests, hforall, hwithin⟩ := (ih hnumbered').mpr h
        rw [hseen, hjobs] at hwithin
        exact ⟨request :: requests, .cons hjson hforall, within_cons.mpr ⟨⟨haccepts.toSound,
          haccepts.fresh, haccepts.calls, haccepts.room, hdenial⟩, hwithin⟩⟩
      · cases h

/-- **A frame is served in full exactly if it keeps within the limits.** -/
theorem frameFits_iff (hjason : cfg.jason.Lawful) (hnumbered : state.Numbered)
    (clock : ℕ → ℤ) (bytes : Bytes) :
    FrameFits cfg state bytes ↔ (dispatchRequests cfg clock state bytes).2.2 = none := by
  constructor
  · rintro ⟨hlength, json, jsons, requests, hdecode, hget, hcount, hforall, hwithin⟩
    unfold dispatchRequests
    simp only [if_pos hlength, hdecode, Option.bind_some, hget, if_pos hcount]
    exact (within_iff hjason hnumbered jsons).mp ⟨requests, hforall, hwithin⟩
  · intro h
    unfold dispatchRequests at h
    split_ifs at h with hlength
    · split at h
      · rename_i jsons hjsons
        split_ifs at h with hcount
        · obtain ⟨json, hdecode, hget⟩ := Option.bind_eq_some_iff.mp hjsons
          obtain ⟨requests, hforall, hwithin⟩ := (within_iff hjason hnumbered jsons).mpr h
          exact ⟨hlength, json, jsons, requests, hdecode, hget, hcount, hforall, hwithin⟩
        · cases h
      · cases h
    · cases h

end Javex.Callbacks
