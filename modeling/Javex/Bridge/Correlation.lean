import Javex.Bridge.Session
import Mathlib.Data.List.Flatten

/-!
# Where calls and completions are

The invariant `Correlated` of a session. The calls that the broker has not come to, wherever they
are, are pending in the bridge and told apart by their ids; the requests that it has accepted are
pending or settled. The completions it has sent are, in their order, those that the guest has
settled, those on their way and those the run worker has not received. This module shows that the
broker and the run worker keep it, `Javex.Bridge.Completions` that the guest does.

The invariant is an accounting of ids over places: in a batch that the bridge has not handed over,
in a frame on its way, in the mailbox of the broker, with the broker, in a completion on its way
back. An id is in exactly one of these places from the moment at which it is taken until its promise
is settled, and each clause of `Correlated` is about one place or about the border between two. The
broker's side uses the invariants that are known of it (`Ledger`, `Replies`); nothing about the
contents of a completion beyond its id enters here.
-/

namespace Javex.Bridge

open Codec Transition Callbacks

/-! ### What is where -/

/-- The call that a request of the broker was. -/
def callOf (r : Request) : Call := ⟨r.id, r.name, r.text⟩

/-- The calls in a message to the broker. -/
def messageCalls : Message → List Call
  | .dispatch bytes => callsOf bytes
  | _ => []

/-- The id of a completion that the bridge has parsed. -/
def completionId? (value : Json) : Option ℕ :=
  match value.get (utf8 "id") with
  | some (.int (.ofNat id)) => some id
  | _ => none

/-- A completion that the bridge takes is for a pending call, which it settles. -/
theorem Closure.settle_cases {b b' : Closure} {value : Json} (h : b.settle value = .ok b') :
    ∃ id call settlement, completionId? value = some id ∧ b.pending.lookup id = some call ∧
      b' = { b with
        pending := b.pending.erase id, settled := b.settled ++ [(call, settlement)] } := by
  unfold settle at h
  cases hid : value.get (utf8 "id") with
  | none =>
    rw [hid] at h
    cases h
  | some json =>
    rw [hid] at h
    split at h
    case h_1 id heq =>
      obtain rfl := Option.some.inj heq
      have hcompletion : completionId? value = some id := by
        simp only [completionId?, hid]
      cases hcall : b.pending.lookup id with
      | none =>
        rw [hcall] at h
        cases h
      | some call =>
        rw [hcall] at h
        dsimp only at h
        repeat' split at h
        all_goals cases h <;> exact ⟨id, call, _, hcompletion, hcall, rfl⟩
    case h_2 => cases h

namespace Session

/-- The calls that the broker has not come to: in the requests at hand, its mailbox, the frames on
their way and the bridge. -/
def unseen (s : Session) (requests : List Json) : List Call :=
  requests.filterMap call? ++ s.world.inbox.flatMap messageCalls ++ s.frames.flatMap callsOf ++
    s.guest.bridge.requests

/-- The ids of the calls that were settled. -/
def settled (s : Session) : List ℕ := s.guest.bridge.settled.map (·.1.id)

/-- The completions that the run worker has not received. -/
def unread (s : Session) : List (Completion × Bytes) :=
  (s.world.events.drop s.read).filterMap Event.reply?

/-- The ids of the completions that the guest has not come to. -/
def inFlight (s : Session) : List ℕ :=
  s.guest.values.filterMap completionId? ++ s.completions.map (·.1.id) ++ s.unread.map (·.1.id)

end Session

/-- The call was settled by the completion. -/
def Settles (p : Call × Settlement) (c : Completion × Bytes) : Prop :=
  p.1.id = c.1.id ∧ settlement? c.1 = some p.2

/-- The completions of the broker, in their order: those the guest has settled or is about to,
those on their way, those a cancelled run worker has dropped, and those it has not received. -/
def Ordered (s : Session) : Prop :=
  ∃ done now dropped, s.world.replies = done ++ now ++ s.completions ++ dropped ++ s.unread ∧
    (s.cancelled = false → dropped = []) ∧ List.Forall₂ Settles s.guest.bridge.settled done ∧
      List.Forall₂ (fun value c => Reads value c.1) s.guest.values now

/-- The calls of the guest and the requests of the broker. -/
structure Correlated (s : Session) (requests : List Json) : Prop where
  pending : ∀ c ∈ s.unseen requests, s.guest.bridge.pending.lookup c.id = some c
  distinct : ((s.unseen requests).map Call.id).Nodup
  fresh : ∀ c ∈ s.unseen requests, c.id ∉ s.world.state.accepted.map Request.id
  accepted : ∀ r ∈ s.world.state.accepted,
    s.guest.bridge.pending.lookup r.id = some (callOf r) ∨
      ∃ settlement, (callOf r, settlement) ∈ s.guest.bridge.settled
  ordered : Ordered s
  read_le : s.read ≤ s.world.events.length
  counted : ∀ id, id ∈ s.guest.bridge.pending ∨ id ∈ s.settled ∨
    id ∈ s.guest.inside.map Prod.fst → id ≤ s.guest.bridge.count
  gone : ∀ id ∈ s.settled, id ∉ s.guest.bridge.pending
  inside : (s.guest.inside.map Prod.fst).Nodup ∧ ∀ id ∈ s.guest.inside.map Prod.fst,
    id ∉ s.guest.bridge.pending ∧ id ∉ s.settled
  waiting : s.guest.status = .waiting → s.guest.values = []
  unthrown : ∀ thrown, s.guest.status ≠ .threw thrown

variable {cfg : Config} {backend : Backend} {s s' : Session}

theorem correlated_start : Correlated .start [] where
  pending := nofun
  distinct := List.nodup_nil
  fresh := nofun
  accepted := nofun
  ordered := ⟨[], [], [], rfl, fun _ => rfl, .nil, .nil⟩
  read_le := Nat.le_refl _
  counted _ h := by rcases h with h | h | h <;> cases h
  gone := nofun
  inside := ⟨List.nodup_nil, nofun⟩
  waiting := nofun
  unthrown := nofun

/-! ### The broker -/

/-- The broker accepts calls that it comes to, or drops some, and sends messages. -/
theorem Correlated.world {requests requests' : List Json} (h : Correlated s requests)
    {world : World} (new : List Request)
    (haccepted : world.state.accepted = s.world.state.accepted ++ new)
    (hunseen : (new.map callOf ++
      (requests'.filterMap call? ++ world.inbox.flatMap messageCalls)).Sublist
        (requests.filterMap call? ++ s.world.inbox.flatMap messageCalls))
    (hevents : ∃ more, world.events = s.world.events ++ more) :
    Correlated { s with world } requests' := by
  have hsub : (new.map callOf ++ Session.unseen { s with world } requests').Sublist
      (s.unseen requests) := by
    have hall := (hunseen.append_right (s.frames.flatMap callsOf)).append_right
      s.guest.bridge.requests
    simpa only [Session.unseen, List.append_assoc] using hall
  have hdistinct := List.Sublist.nodup (hsub.map Call.id) h.distinct
  rw [List.map_append, List.nodup_append] at hdistinct
  obtain ⟨more, hmore⟩ := hevents
  refine ⟨fun c hc => h.pending c (hsub.subset (List.mem_append_right _ hc)), hdistinct.2.1,
    fun c hc hmem => ?_, fun r hr => ?_, ?_, ?_, h.counted, h.gone, h.inside, h.waiting,
    h.unthrown⟩
  · rw [show _ = _ from haccepted, List.map_append, List.mem_append] at hmem
    rcases hmem with hold | hnew
    · exact h.fresh c (hsub.subset (List.mem_append_right _ hc)) hold
    · obtain ⟨r, hr, hid⟩ := List.mem_map.mp hnew
      refine hdistinct.2.2 r.id ?_ c.id (List.mem_map_of_mem hc) hid
      rw [List.map_map]
      exact List.mem_map_of_mem hr
  · rw [show _ = _ from haccepted, List.mem_append] at hr
    rcases hr with hold | hnew
    · exact h.accepted r hold
    · exact .inl (h.pending (callOf r)
        (hsub.subset (List.mem_append_left _ (List.mem_map_of_mem hnew))))
  · obtain ⟨done, now, dropped, hreplies, hdropped, hdone, hnow⟩ := h.ordered
    refine ⟨done, now, dropped, ?_, hdropped, hdone, hnow⟩
    have hunread : Session.unread { s with world } = s.unread ++ more.filterMap Event.reply? := by
      simp only [Session.unread, hmore, List.drop_append_of_le_length h.read_le,
        List.filterMap_append]
    have hsent : world.replies = s.world.replies ++ more.filterMap Event.reply? := by
      simp only [World.replies, hmore, List.filterMap_append]
    simp only [hunread, hsent, hreplies, List.append_assoc]
  · simp only [hmore, List.length_append]
    exact Nat.le_add_right_of_le h.read_le

/-- A value that is a request is a call. -/
theorem call?_of_isRequest {json : Json} {r : Request} (h : IsRequest json r) :
    call? json = some (callOf r) := by
  obtain ⟨hid, hname, htext⟩ := h
  simp only [call?, hid, hname, htext]
  rfl

/-- Every move of the broker keeps the calls and the requests together. -/
theorem correlated_move (hjason : cfg.jason.Lawful) {w w' : World} {requests requests' : List Json}
    (h : Correlated { s with world := w } requests)
    (hmove : Move cfg (fun _ => False) (w, requests) (w', requests')) :
    Correlated { s with world := w' } requests' := by
  -- most moves take at most a message
  have hquiet : ∀ {v : World}, v.state.accepted = w.state.accepted →
      (v.inbox.flatMap messageCalls).Sublist (w.inbox.flatMap messageCalls) →
      (∃ more, v.events = w.events ++ more) → requests = [] →
        Correlated { s with world := v } [] := by
    rintro v haccepted hinbox hevents rfl
    exact h.world [] (by rw [List.append_nil]; exact haccepted) hinbox hevents
  have htail : ∀ {message : Message} {rest : List Message}, w.inbox = message :: rest →
      (rest.flatMap messageCalls).Sublist (w.inbox.flatMap messageCalls) := by
    intro message rest hinbox
    rw [hinbox, List.flatMap_cons]
    exact List.sublist_append_right _ _
  have hpost : ∀ message, messageCalls message = [] →
      ((w.inbox ++ [message]).flatMap messageCalls).Sublist (w.inbox.flatMap messageCalls) := by
    intro message hmessage
    rw [List.flatMap_append, List.flatMap_singleton, hmessage, List.append_nil]
  have hsame : ∃ more, w.events = w.events ++ more := ⟨[], (List.append_nil _).symm⟩
  cases hmove with
  | take hphase hinbox => exact hquiet rfl (htail hinbox) hsame rfl
  | @frame _ bytes rest json _ hphase hinbox hdecode hrequests =>
    refine h.world [] (List.append_nil _).symm ?_ hsame
    -- the requests at hand are the calls of the frame
    have hcalls : callsOf bytes = requests'.filterMap call? := by
      simp only [callsOf, hjason.decoded hdecode, Option.bind_some, hrequests]
    simp only [hinbox, List.flatMap_cons, messageCalls, hcalls, List.map_nil, List.nil_append,
      List.filterMap_nil]
    exact List.Sublist.refl _
  | @spawn _ json requests request callback hphase hjson hrequest hcallback clock =>
    refine h.world [request] rfl ?_ hsame
    rw [List.filterMap_cons_some (call?_of_isRequest hjson)]
    exact List.Sublist.refl _
  | @deny _ json requests request text hphase hjson hrequest hcallback htext =>
    refine h.world [request] rfl ?_ ⟨_, rfl⟩
    rw [List.filterMap_cons_some (call?_of_isRequest hjson)]
    exact List.Sublist.refl _
  | record hphase hinbox hjob => exact hquiet rfl (htail hinbox) hsame rfl
  | complete hphase hinbox hjob hresult htext => exact hquiet rfl (htail hinbox) ⟨_, rfl⟩ rfl
  | fatal hphase hinbox hjob hstate message =>
    subst hstate
    rw [clean_eq]
    exact hquiet rfl (htail hinbox) ⟨_, rfl⟩ rfl
  | fail hphase requests kind hkind message =>
    rw [clean_eq]
    exact h.world [] (List.append_nil _).symm (List.sublist_append_right _ _) ⟨_, rfl⟩
  | stop hphase hinbox hmessage =>
    rw [clean_eq]
    exact hquiet rfl (htail hinbox) hsame rfl
  | await hphase hdown => exact hquiet rfl (List.erase_sublist.flatMap _) hsame rfl
  | dispatch hworker hbytes => exact hbytes.elim
  | answer | late | die | fire | noise | finish | workerDies =>
    exact hquiet rfl (hpost _ rfl) hsame rfl
  | exit | call | stopped | report => exact hquiet rfl (List.Sublist.refl _) hsame rfl

/-- A frame reaches the mailbox of the broker. -/
theorem Correlated.forward {bytes : Bytes} {frames : List Bytes} (h : Correlated s [])
    (hframes : s.frames = bytes :: frames) :
    Correlated { s with world := s.world.post (.dispatch bytes), frames } [] := by
  have hsame : Session.unseen { s with world := s.world.post (.dispatch bytes), frames } [] =
      s.unseen [] := by
    simp only [Session.unseen, World.post, hframes, List.flatMap_append, List.flatMap_cons,
      List.flatMap_nil, messageCalls, List.append_nil, List.append_assoc]
  refine ⟨?_, ?_, ?_, h.accepted, h.ordered, h.read_le, h.counted, h.gone, h.inside, h.waiting,
    h.unthrown⟩
  · rw [hsame]
    exact h.pending
  · rw [hsame]
    exact h.distinct
  · rw [hsame]
    exact h.fresh

/-- Calls that the broker has not come to are dropped. -/
theorem Correlated.drop {bytes : Bytes} {frames : List Bytes} (h : Correlated s [])
    (hframes : s.frames = bytes :: frames) : Correlated { s with frames } [] := by
  have hsub : (Session.unseen { s with frames } []).Sublist (s.unseen []) := by
    simp only [Session.unseen, hframes, List.flatMap_cons]
    exact ((List.sublist_append_right _ _).append_left _).append_right _
  exact ⟨fun c hc => h.pending c (hsub.subset hc), (hsub.map Call.id).nodup h.distinct,
    fun c hc => h.fresh c (hsub.subset hc), h.accepted, h.ordered, h.read_le, h.counted, h.gone,
    h.inside, h.waiting, h.unthrown⟩

/-! ### The run worker -/

theorem unread_cons {event : Event} (h : s.world.events[s.read]? = some event) :
    s.unread = event.reply?.toList ++ Session.unread { s with read := s.read + 1 } := by
  obtain ⟨hlt, rfl⟩ := List.getElem?_eq_some_iff.mp h
  rw [Session.unread, List.drop_eq_getElem_cons hlt, List.filterMap_cons]
  cases s.world.events[s.read].reply? <;> rfl

/-- The run worker receives a message. -/
theorem Correlated.receive {event : Event} (h : Correlated s [])
    (hevent : s.world.events[s.read]? = some event) : Correlated (s.receive event) [] := by
  obtain ⟨hlt, -⟩ := List.getElem?_eq_some_iff.mp hevent
  obtain ⟨done, now, dropped, hreplies, hdropped, hdone, hnow⟩ := h.ordered
  rw [unread_cons hevent] at hreplies
  cases event with
  | error kind message =>
    refine ⟨h.pending, h.distinct, h.fresh, h.accepted, ?_, hlt, h.counted, h.gone, h.inside,
      h.waiting, h.unthrown⟩
    exact ⟨done, now, dropped, hreplies, by rintro ⟨⟩, hdone, hnow⟩
  | reply c text =>
    refine ⟨h.pending, h.distinct, h.fresh, h.accepted, ?_, hlt, h.counted, h.gone, h.inside,
      h.waiting, h.unthrown⟩
    cases hcancelled : s.cancelled with
    | true =>
      have hkept : (s.receive (.reply c text)).completions = s.completions := if_pos hcancelled
      refine ⟨done, now, dropped ++ [(c, text)], ?_, fun hnot => ?_, hdone, hnow⟩
      · change s.world.replies = done ++ now ++ (s.receive (.reply c text)).completions ++
          (dropped ++ [(c, text)]) ++ Session.unread { s with read := s.read + 1 }
        rw [hkept, hreplies]
        simp only [Event.reply?, Option.toList_some, List.append_assoc]
      · cases hcancelled.symm.trans hnot
    | false =>
      have hmore : (s.receive (.reply c text)).completions = s.completions ++ [(c, text)] :=
        if_neg (by rw [hcancelled]; exact Bool.false_ne_true)
      obtain rfl := hdropped hcancelled
      refine ⟨done, now, [], ?_, fun _ => rfl, hdone, hnow⟩
      change s.world.replies = done ++ now ++ (s.receive (.reply c text)).completions ++ [] ++
        Session.unread { s with read := s.read + 1 }
      rw [hmore, hreplies]
      simp only [Event.reply?, Option.toList_some, List.append_assoc, List.nil_append]

end Javex.Bridge
