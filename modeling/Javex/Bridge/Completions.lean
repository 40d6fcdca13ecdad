import Javex.Bridge.Correlation
import Javex.ForMathlib.Except

/-!
# Completions find their calls

The guest keeps the invariant `Correlated`, whatever its code does between two steps of the
bridge. So a completion that the bridge comes to is for a pending call: it is never unknown, it
comes once, and it answers the request that the call was.

The guest may do anything between two steps of the bridge except reach into its closure, so what
carries the invariant is what the closure itself does: an id is taken when a call is entered, the
call is recorded under it when its text is there, and it is forgotten when it is settled. A call
that has been entered and not recorded yet counts as one of the guest's own and has no request that
could be answered.

* `completions_correlated`: every completion that the bridge comes to is for a call that is pending,
  and its request is the one that the broker accepted under this id.
-/

namespace Javex.Bridge

open Codec Transition Callbacks

variable {cfg : Config} {backend : Backend} {s s' : Session}

/-! ### The guest -/

/-- Completions reach the bridge. -/
theorem Correlated.resume (hjason : cfg.jason.Lawful) (h : Correlated s [])
    (hreplies : Replies cfg s.world) {c : Completion} {text : Bytes}
    {completions : List (Completion × Bytes)} (hstatus : s.guest.status = .waiting)
    (hcompletions : s.completions = (c, text) :: completions) :
    Correlated { s with guest := s.guest.resume text, completions } [] := by
  obtain ⟨done, now, dropped, hsplit, hdropped, hdone, hnow⟩ := h.ordered
  rw [h.waiting hstatus] at hnow
  cases hnow
  have hmem : (c, text) ∈ s.world.replies := by
    rw [hsplit, hcompletions]
    simp
  obtain ⟨htext, hvalid, -, -⟩ := hreplies.sent c text hmem
  obtain ⟨text', members, htext', hparse, hreads⟩ := completionText_ok hjason hvalid
  obtain rfl : text' = text := by
    rw [htext] at htext'
    exact (Except.ok.inj htext').symm
  simp only [Guest.resume, hparse, looped]
  refine ⟨h.pending, h.distinct, h.fresh, h.accepted, ?_, h.read_le, h.counted, h.gone, h.inside,
    nofun, nofun⟩
  refine ⟨done, [(c, text')], dropped, ?_, hdropped, hdone, .cons hreads .nil⟩
  simp only [hsplit, hcompletions, List.append_assoc, List.cons_append, List.nil_append]
  rfl

/-- The ids of the settled calls are those of the first completions. -/
theorem map_id_of_settles {settled : List (Call × Settlement)} {done : List (Completion × Bytes)}
    (h : List.Forall₂ Settles settled done) : settled.map (·.1.id) = done.map (·.1.id) := by
  induction h with
  | nil => rfl
  | cons hhead _ ih => rw [List.map_cons, List.map_cons, ih, hhead.1]

/-- The completion that the bridge comes to is for a pending call. -/
theorem Correlated.next (h : Correlated s []) (hreplies : Replies cfg s.world) {value : Json}
    {values : List Json} (hvalues : s.guest.values = value :: values) :
    ∃ c text r, Reads value c ∧ (c, text) ∈ s.world.replies ∧ r ∈ s.world.state.accepted ∧
      r.id = c.id ∧ Answers cfg s.world r c ∧
      s.guest.bridge.pending.lookup c.id = some (callOf r) ∧
      ∃ done now dropped,
        s.world.replies = done ++ (c, text) :: now ++ s.completions ++ dropped ++ s.unread ∧
        (s.cancelled = false → dropped = []) ∧ List.Forall₂ Settles s.guest.bridge.settled done ∧
          List.Forall₂ (fun value c => Reads value c.1) values now := by
  obtain ⟨done, now, dropped, hsplit, hdropped, hdone, hnow⟩ := h.ordered
  rw [hvalues] at hnow
  cases hnow with
  | @cons _ ct _ now hreads hrest =>
    obtain ⟨c, text⟩ := ct
    have hmem : (c, text) ∈ s.world.replies := by
      rw [hsplit]
      simp
    obtain ⟨-, -, -, r, hr, hid, hanswers⟩ := hreplies.sent c text hmem
    refine ⟨c, text, r, hreads, hmem, hr, hid, hanswers, ?_, done, now, dropped, hsplit, hdropped,
      hdone, hrest⟩
    rcases h.accepted r hr with hpending | ⟨settlement, hsettled⟩
    · exact hid ▸ hpending
    · -- the call would have been settled by an earlier completion
      have honce := hreplies.once
      rw [hsplit, List.append_assoc, List.append_assoc, List.append_assoc, List.map_append,
        List.nodup_append] at honce
      have hfirst : r.id ∈ done.map (·.1.id) := by
        rw [← map_id_of_settles hdone]
        exact List.mem_map_of_mem (f := (·.1.id)) hsettled
      exact absurd hid (honce.2.2 r.id hfirst c.id (by simp))

/-- The guest enters a call. -/
theorem Correlated.enter (cfg : Config) (h : Correlated s []) (hstatus : s.guest.status = .running)
    (name : Option Bytes) (measured : ℕ) :
    Correlated { s with guest := { s.guest with
      bridge := (s.guest.bridge.enter cfg name measured).1
      inside := (s.guest.bridge.enter cfg name measured).2.toList ++ s.guest.inside } } [] := by
  obtain ⟨fatal, hbridge, -, hcall, -⟩ := s.guest.bridge.enter_cases cfg name measured
  have hnew : ∀ id ∈
      ((s.guest.bridge.enter cfg name measured).2.toList ++ s.guest.inside).map Prod.fst,
      id = s.guest.bridge.count + 1 ∨ id ∈ s.guest.inside.map Prod.fst := by
    intro id hid
    rw [List.map_append, List.mem_append] at hid
    refine hid.imp_left fun hthis => ?_
    obtain ⟨call, hmem, rfl⟩ := List.mem_map.mp hthis
    exact (hcall call (Option.mem_toList.mp hmem)).id
  -- the new id is beyond all others
  have hbeyond : ∀ id, id ∈ s.guest.bridge.pending ∨ id ∈ s.settled ∨
      id ∈ s.guest.inside.map Prod.fst → id ≠ s.guest.bridge.count + 1 :=
    fun id hid => Nat.ne_of_lt (Nat.lt_succ_of_le (h.counted id hid))
  simp only [hbridge]
  refine ⟨h.pending, h.distinct, h.fresh, h.accepted, h.ordered, h.read_le, fun id hid => ?_,
    h.gone, ⟨?_, fun id hid => ?_⟩, fun hwaiting => ?_, h.unthrown⟩
  · rcases hid with hpending | hsettled | hinside
    · exact Nat.le_succ_of_le (h.counted id (.inl hpending))
    · exact Nat.le_succ_of_le (h.counted id (.inr (.inl hsettled)))
    · rcases hnew id hinside with rfl | hold
      · exact Nat.le_refl _
      · exact Nat.le_succ_of_le (h.counted id (.inr (.inr hold)))
  · rw [List.map_append, List.nodup_append]
    refine ⟨?_, h.inside.1, fun a ha b hb => ?_⟩
    · cases (s.guest.bridge.enter cfg name measured).2 with
      | none => exact List.nodup_nil
      | some call => exact List.nodup_singleton _
    · obtain ⟨call, hmem, rfl⟩ := List.mem_map.mp ha
      rw [(hcall call (Option.mem_toList.mp hmem)).id]
      exact (hbeyond b (.inr (.inr hb))).symm
  · rcases hnew id hid with rfl | hold
    · exact ⟨fun hmem => hbeyond _ (.inl hmem) rfl, fun hmem => hbeyond _ (.inr (.inl hmem)) rfl⟩
    · exact h.inside.2 id hold
  · rw [show s.guest.status = .waiting from hwaiting] at hstatus
    cases hstatus

section Leave

variable {id : ℕ} {name : Bytes} {inside : List (ℕ × Bytes)}

/-- The calls that a call is within stay as they are when it comes back. -/
theorem Correlated.rest (h : Correlated s []) (hinside : s.guest.inside = (id, name) :: inside) :
    id ∉ inside.map Prod.fst ∧ (inside.map Prod.fst).Nodup ∧
      ∀ i ∈ inside.map Prod.fst, i ∉ s.guest.bridge.pending ∧ i ∉ s.settled := by
  obtain ⟨hnodup, hapart⟩ := h.inside
  rw [hinside, List.map_cons] at hapart
  rw [hinside, List.map_cons, List.nodup_cons] at hnodup
  exact ⟨hnodup.1, hnodup.2, fun i hi => hapart i (List.mem_cons_of_mem _ hi)⟩

theorem Correlated.count_rest (h : Correlated s [])
    (hinside : s.guest.inside = (id, name) :: inside) {i : ℕ}
    (hi : i ∈ s.guest.bridge.pending ∨ i ∈ s.settled ∨ i ∈ inside.map Prod.fst) :
    i ≤ s.guest.bridge.count := by
  refine h.counted i (hi.imp_right (Or.imp_right fun hi => ?_))
  rw [hinside, List.map_cons]
  exact List.mem_cons_of_mem _ hi

/-- A call comes back and is forgotten. -/
theorem Correlated.forget (h : Correlated s []) (hinside : s.guest.inside = (id, name) :: inside)
    (fatal : Bool) :
    Correlated { s with guest := { s.guest with
      bridge := { s.guest.bridge with fatal }, inside } } [] := by
  obtain ⟨-, hnodup, hleft⟩ := h.rest hinside
  exact ⟨h.pending, h.distinct, h.fresh, h.accepted, h.ordered, h.read_le,
    fun _ hi => h.count_rest hinside hi, h.gone, ⟨hnodup, hleft⟩, h.waiting, h.unthrown⟩

/-- A call comes back and is recorded. -/
theorem Correlated.record (h : Correlated s []) (hinside : s.guest.inside = (id, name) :: inside)
    (json : Bytes) :
    Correlated { s with guest := { s.guest with
      bridge := { s.guest.bridge with
        pending := s.guest.bridge.pending.insert id ⟨id, name, json⟩
        requests := s.guest.bridge.requests ++ [⟨id, name, json⟩] }, inside } } [] := by
  obtain ⟨hout, hnodup, hleft⟩ := h.rest hinside
  have hmem : id ∈ s.guest.inside.map Prod.fst := by
    rw [hinside]
    exact List.mem_cons_self
  obtain ⟨hnew, hunsettled⟩ := h.inside.2 id hmem
  -- every call that is known is pending or settled, this one is neither
  have hknown : ∀ c ∈ s.unseen [], c.id ≠ id := by
    rintro c hc rfl
    exact hnew (AList.mem_of_lookup (h.pending c hc))
  have hunseen : ∀ guest : Guest, guest.bridge.requests = s.guest.bridge.requests ++
      [⟨id, name, json⟩] → Session.unseen { s with guest } [] =
        s.unseen [] ++ [⟨id, name, json⟩] := by
    intro guest hrequests
    simp only [Session.unseen, hrequests, List.append_assoc]
  refine ⟨fun c hc => ?_, ?_, fun c hc => ?_, fun r hr => ?_, h.ordered, h.read_le,
    fun i hi => ?_, fun i hi hmem => ?_, ⟨hnodup, fun i hi => ?_⟩, h.waiting, h.unthrown⟩
  · rw [hunseen _ rfl, List.mem_append] at hc
    rcases hc with hc | hthis
    · exact (AList.lookup_insert_ne (hknown c hc)).trans (h.pending c hc)
    · obtain rfl := List.mem_singleton.mp hthis
      exact AList.lookup_insert _
  · rw [hunseen _ rfl, List.map_append, List.nodup_append]
    refine ⟨h.distinct, List.nodup_singleton _, fun a ha b hb => ?_⟩
    obtain ⟨c, hc, rfl⟩ := List.mem_map.mp ha
    rw [List.mem_singleton.mp hb]
    exact hknown c hc
  · rw [hunseen _ rfl, List.mem_append] at hc
    rcases hc with hc | hthis
    · exact h.fresh c hc
    · obtain rfl := List.mem_singleton.mp hthis
      intro hmem
      obtain ⟨r, hr, hid⟩ := List.mem_map.mp hmem
      obtain rfl : r.id = id := hid
      rcases h.accepted r hr with hpending | ⟨settlement, hsettled⟩
      · exact hnew (AList.mem_of_lookup hpending)
      · exact hunsettled (List.mem_map_of_mem (f := (·.1.id)) hsettled)
  · rcases h.accepted r hr with hpending | hsettled
    · refine .inl ((AList.lookup_insert_ne ?_).trans hpending)
      rintro rfl
      exact hnew (AList.mem_of_lookup hpending)
    · exact .inr hsettled
  · rcases hi with hpending | hrest
    · rcases (AList.mem_insert _).mp hpending with rfl | hpending
      · exact h.counted _ (.inr (.inr hmem))
      · exact h.count_rest hinside (.inl hpending)
    · exact h.count_rest hinside (.inr hrest)
  · rcases (AList.mem_insert _).mp hmem with rfl | hmem
    · exact hunsettled hi
    · exact h.gone i hi hmem
  · refine ⟨fun hmem => ?_, (hleft i hi).2⟩
    rcases (AList.mem_insert _).mp hmem with rfl | hmem
    · exact hout hi
    · exact (hleft i hi).1 hmem

/-- A call comes back from `stringify`. -/
theorem Correlated.leave (h : Correlated s []) (hinside : s.guest.inside = (id, name) :: inside)
    (json : Option Bytes) (measured : ℕ) :
    Correlated { s with guest := { s.guest with
      bridge := s.guest.bridge.leave cfg id name json measured, inside } } [] := by
  cases json with
  | none => exact h.forget hinside s.guest.bridge.fatal
  | some json =>
    simp only [Closure.leave]
    split_ifs
    · exact h.forget hinside true
    · exact h.record hinside json

end Leave

/-- The bridge settles a promise. -/
theorem Correlated.settle (h : Correlated s []) (hreplies : Replies cfg s.world) {value : Json}
    {values : List Json} (hvalues : s.guest.values = value :: values)
    (hstatus : s.guest.status = .running) :
    ∃ bridge, s.guest.bridge.settle value = .ok bridge ∧
      Correlated { s with guest := { s.guest with bridge, values } } [] := by
  obtain ⟨c, text, r, hreads, hmem, hr, hid, -, hpending, done, now, dropped, hsplit, hdropped,
    hdone, hnow⟩ := h.next hreplies hvalues
  obtain ⟨-, -, hreadable, -⟩ := hreplies.sent c text hmem
  obtain ⟨settlement, hsettlement, hok⟩ := Closure.settle_ok hreads hreadable hpending
  refine ⟨_, hok, ?_⟩
  have hgone : c.id ∉ s.settled := fun hsettled => h.gone _ hsettled (AList.mem_of_lookup hpending)
  have hsettled : ∀ bridge : Closure, bridge.settled = s.guest.bridge.settled ++
      [(callOf r, settlement)] → ∀ guest : Guest, guest.bridge = bridge →
        Session.settled { s with guest } = s.settled ++ [c.id] := by
    rintro bridge hbridge guest rfl
    rw [Session.settled, hbridge, List.map_append]
    exact congrArg _ (congrArg ([·]) hid)
  -- what the broker has not come to is for other calls
  have hother : ∀ call ∈ s.unseen [], call.id ≠ c.id := fun call hcall heq =>
    h.fresh call hcall (heq ▸ hid ▸ List.mem_map_of_mem hr)
  refine ⟨fun call hcall => ?_, h.distinct, h.fresh, fun r' hr' => ?_, ?_, h.read_le,
    fun i hi => ?_, fun i hi hmem => ?_, ⟨h.inside.1, fun i hi => ?_⟩, fun hwaiting => ?_,
    h.unthrown⟩
  · exact (AList.lookup_erase_ne (hother call hcall)).trans (h.pending call hcall)
  · rcases h.accepted r' hr' with hold | ⟨settlement', hold⟩
    · by_cases heq : r'.id = c.id
      · have hcall : callOf r' = callOf r := Option.some.inj ((heq ▸ hold).symm.trans hpending)
        exact .inr ⟨settlement, hcall ▸ List.mem_append_right _ List.mem_cons_self⟩
      · exact .inl ((AList.lookup_erase_ne heq).trans hold)
    · exact .inr ⟨settlement', List.mem_append_left _ hold⟩
  · refine ⟨done ++ [(c, text)], now, dropped, ?_, hdropped, ?_, hnow⟩
    · refine hsplit.trans ?_
      simp only [List.append_assoc, List.cons_append, List.nil_append]
      rfl
    · exact List.rel_append hdone (.cons ⟨hid, hsettlement⟩ .nil)
  · refine h.counted i ?_
    rcases hi with hold | hold | hold
    · exact .inl ((AList.mem_erase.mp hold).2)
    · rw [hsettled _ rfl _ rfl, List.mem_append] at hold
      rcases hold with hold | hthis
      · exact .inr (.inl hold)
      · exact .inl (List.mem_singleton.mp hthis ▸ AList.mem_of_lookup hpending)
    · exact .inr (.inr hold)
  · obtain ⟨hne, hold⟩ := AList.mem_erase.mp hmem
    rw [hsettled _ rfl _ rfl, List.mem_append] at hi
    rcases hi with hi | hthis
    · exact h.gone i hi hold
    · exact hne (List.mem_singleton.mp hthis)
  · obtain ⟨hunpending, hunsettled⟩ := h.inside.2 i hi
    refine ⟨fun hmem => hunpending (AList.mem_erase.mp hmem).2, ?_⟩
    rw [hsettled _ rfl _ rfl, List.mem_append, not_or]
    refine ⟨hunsettled, fun hthis => hunpending ?_⟩
    exact List.mem_singleton.mp hthis ▸ AList.mem_of_lookup hpending
  · rw [show s.guest.status = .waiting from hwaiting] at hstatus
    cases hstatus

/-- The guest hands its requests over. -/
theorem Correlated.yield (h : Correlated s []) (hvalues : s.guest.values = []) :
    Correlated { s with
      guest := { s.guest with
        bridge := { s.guest.bridge with requests := [] }, status := .waiting }
      frames := s.frames ++
        [frame false s.guest.bridge.fatal s.guest.bridge.requests] } [] := by
  have hsame : Session.unseen { s with
      guest := { s.guest with
        bridge := { s.guest.bridge with requests := [] }, status := .waiting }
      frames := s.frames ++
        [frame false s.guest.bridge.fatal s.guest.bridge.requests] } [] = s.unseen [] := by
    simp only [Session.unseen, List.flatMap_append, List.flatMap_singleton, callsOf_frame,
      List.append_assoc, List.append_nil]
  refine ⟨?_, ?_, ?_, h.accepted, h.ordered, h.read_le, h.counted, h.gone, h.inside,
    fun _ => hvalues, by rintro _ ⟨⟩⟩
  · rw [hsame]
    exact h.pending
  · rw [hsame]
    exact h.distinct
  · rw [hsame]
    exact h.fresh

/-- The execution of the guest ends. -/
theorem Correlated.halt (h : Correlated s []) :
    Correlated { s with guest := { s.guest with status := .ended } } [] :=
  ⟨h.pending, h.distinct, h.fresh, h.accepted, h.ordered, h.read_le, h.counted, h.gone, h.inside,
    nofun, nofun⟩

/-- Whatever the guest does keeps the invariant. -/
theorem Correlated.act (h : Correlated s []) (hreplies : Replies cfg s.world) {action : Action}
    {next : Guest × Option Bytes} (hact : s.guest.act cfg action = some next) :
    Correlated { s with guest := next.1, frames := s.frames ++ next.2.toList } [] := by
  have hnone : ∀ {guest : Guest}, Correlated { s with guest } [] →
      Correlated { s with guest, frames := s.frames ++ (none : Option Bytes).toList } [] := by
    intro guest hguest
    rw [Option.toList_none, List.append_nil]
    exact hguest
  cases Guest.act_cases hact with
  | enter hstatus => exact hnone (h.enter cfg hstatus _ _)
  | leave hinside => exact hnone (h.leave hinside _ _)
  | settle hstatus hinside hvalues hsettle =>
    obtain ⟨bridge, hok, hsettled⟩ := h.settle hreplies hvalues hstatus
    cases hsettle.symm.trans hok
    exact hnone hsettled
  | throw hstatus hvalues hsettle =>
    obtain ⟨bridge, hok, -⟩ := h.settle hreplies hvalues hstatus
    cases hsettle.symm.trans hok
  | yieldFatal => exact hnone h.halt
  | yield hvalues => exact h.yield hvalues
  | halt => exact hnone h.halt

/-! ### Every run -/

/-- **Every session is correlated**, and its broker is one that `Javex.Callbacks` knows. -/
theorem correlated_of_reachable (hjason : cfg.jason.Lawful)
    (h : (system cfg backend).Reachable s) :
    (Callbacks.system cfg).Reachable s.world ∧ Correlated s [] := by
  refine System.of_reachable_rel
    (I := fun s => (Callbacks.system cfg).Reachable s.world ∧ Correlated s []) ?_ ?_ h
  · rintro _ rfl
    exact ⟨.init rfl, correlated_start⟩
  · rintro s l s' - ⟨hworld, h⟩ hst
    obtain ⟨hbooks, -, hreplies, -⟩ := replies_of_reachable hjason hworld
    cases step_cases hst with
    | broker hquiet hstep =>
      refine ⟨hworld.step hstep, ?_⟩
      exact (invariant_of_step (I := fun w requests => Correlated { s with world := w } requests)
        hjason (fun _ _ _ _ _ hw hmove => correlated_move hjason hw hmove)
        (fun bytes heq => hquiet bytes heq) hstep hbooks h).2
    | guest hact => exact ⟨hworld, h.act hreplies hact⟩
    | drop hframes => exact ⟨hworld, h.drop hframes⟩
    | forward hframes hstep => exact ⟨hworld.step hstep, h.forward hframes⟩
    | @receive event hevent =>
      refine ⟨?_, h.receive hevent⟩
      cases event <;> exact hworld
    | resume hstatus hcompletions =>
      exact ⟨hworld, h.resume hjason hreplies hstatus hcompletions⟩
    | cancel =>
      obtain ⟨done, now, dropped, hsplit, -, hdone, hnow⟩ := h.ordered
      exact ⟨hworld, h.pending, h.distinct, h.fresh, h.accepted,
        ⟨done, now, dropped, hsplit, by rintro ⟨⟩, hdone, hnow⟩, h.read_le, h.counted, h.gone,
        h.inside, h.waiting, h.unthrown⟩

/-! ### Completions -/

/-- The completion answers the request that the call was: with what the host function granted
under its name came to at its decoded argument, or by the denial or the failure of the call. -/
def Completes (cfg : Config) (s : Session) (call : Call) (c : Completion) : Prop :=
  ∃ r ∈ s.world.state.accepted, callOf r = call ∧
    cfg.jason.decode call.argument = some r.argument ∧ Answers cfg s.world r c

theorem completionId?_of_reads {value : Json} {c : Completion} (h : Reads value c) :
    completionId? value = some c.id := by
  have hid := h "id"
  cases c <;> simp [Completion.fields, Scalar.toJson] at hid <;>
    simp only [completionId?, hid] <;> rfl

theorem filterMap_completionId {values : List Json} {now : List (Completion × Bytes)}
    (h : List.Forall₂ (fun value c => Reads value c.1) values now) :
    values.filterMap completionId? = now.map (·.1.id) := by
  induction h with
  | nil => rfl
  | cons hhead _ ih =>
    rw [List.filterMap_cons_some (completionId?_of_reads hhead), List.map_cons, ih]

/-- No call is settled twice. -/
theorem Correlated.settled_nodup (h : Correlated s []) (hreplies : Replies cfg s.world) :
    s.settled.Nodup := by
  obtain ⟨done, now, dropped, hsplit, -, hdone, -⟩ := h.ordered
  have honce := hreplies.once
  rw [hsplit] at honce
  simp only [List.append_assoc, List.map_append] at honce
  rw [Session.settled, map_id_of_settles hdone]
  exact (List.nodup_append.mp honce).1

/-- A call was settled by a completion that answers it. -/
theorem Correlated.completes (h : Correlated s []) (hledger : Ledger cfg s.world)
    (hreplies : Replies cfg s.world) {p : Call × Settlement}
    (hp : p ∈ s.guest.bridge.settled) :
    ∃ c, c.id = p.1.id ∧ settlement? c = some p.2 ∧ Completes cfg s p.1 c := by
  obtain ⟨done, now, dropped, hsplit, -, hdone, -⟩ := h.ordered
  obtain ⟨⟨c, text⟩, hmem, hid, hsettlement⟩ := hdone.exists_mem hp
  have hsent : (c, text) ∈ s.world.replies := by
    rw [hsplit]
    simp [hmem]
  obtain ⟨-, -, -, r, hr, hrid, hanswers⟩ := hreplies.sent c text hsent
  have hsame : (callOf r).id = p.1.id := hrid.trans hid.symm
  -- the request is the one that the call was: the call is no longer pending
  have hcall : callOf r = p.1 := by
    rcases h.accepted r hr with hpending | ⟨settlement, hsettled⟩
    · have hsettled : r.id ∈ s.settled :=
        (show r.id = p.1.id from hsame) ▸ List.mem_map_of_mem (f := (·.1.id)) hp
      exact absurd (AList.mem_of_lookup hpending) (h.gone _ hsettled)
    · exact congrArg Prod.fst
        (List.inj_on_of_nodup_map (h.settled_nodup hreplies) hsettled hp hsame)
  exact ⟨c, hid.symm, hsettlement, r, hr, hcall, hcall ▸ (hledger.sound r hr).decoded, hanswers⟩

/-- The completions that the guest has settled or not come to yet are all that the broker sent. -/
theorem Correlated.replies (h : Correlated s []) (hcancelled : s.cancelled = false) :
    s.settled ++ s.inFlight = s.world.replies.map (·.1.id) := by
  obtain ⟨done, now, dropped, hsplit, hdropped, hdone, hnow⟩ := h.ordered
  obtain rfl := hdropped hcancelled
  rw [Session.settled, map_id_of_settles hdone, Session.inFlight, filterMap_completionId hnow,
    hsplit]
  simp only [List.map_append, List.append_assoc, List.nil_append]

/-- **Exactly-once, correctly correlated completions.** The bridge never throws at a completion:
the one it comes to is for a pending call and answers it. No call is settled twice, each by a
completion that answers it. While the run goes on, every request that the broker has accepted
either has been completed, or has its one completion on the way, or is still in its jobs. -/
theorem completions_correlated (hjason : cfg.jason.Lawful)
    (h : (system cfg backend).Reachable s) :
    (∀ thrown, s.guest.status ≠ .threw thrown) ∧
    (∀ value values, s.guest.values = value :: values → ∃ c call, Reads value c ∧
      s.guest.bridge.pending.lookup c.id = some call ∧ Completes cfg s call c) ∧
    s.settled.Nodup ∧
    (∀ p ∈ s.guest.bridge.settled, ∃ c, c.id = p.1.id ∧ settlement? c = some p.2 ∧
      Completes cfg s p.1 c) ∧
    (s.cancelled = false → s.world.worker = .working → s.world.errors = [] →
      (s.settled ++ s.inFlight).Nodup ∧ ∀ r ∈ s.world.state.accepted,
        (r.id ∈ s.settled ++ s.inFlight ↔
          ¬ ∃ pid job, s.world.state.jobs.lookup pid = some job ∧ job.id = r.id)) := by
  obtain ⟨hworld, hcorrelated⟩ := correlated_of_reachable hjason h
  obtain ⟨-, hledger, hreplies, hongoing⟩ := replies_of_reachable hjason hworld
  refine ⟨hcorrelated.unthrown, fun value values hvalues => ?_, hcorrelated.settled_nodup hreplies,
    fun p hp => hcorrelated.completes hledger hreplies hp,
    fun hcancelled hworking hnone => ?_⟩
  · obtain ⟨c, text, r, hreads, hmem, hr, hid, hanswers, hpending, -⟩ :=
      hcorrelated.next hreplies hvalues
    exact ⟨c, callOf r, hreads, hpending, r, hr, rfl, (hledger.sound r hr).decoded, hanswers⟩
  · have hall := hcorrelated.replies hcancelled
    rw [hall]
    refine ⟨hreplies.once, fun r hr => ⟨fun hsent hjob => ?_, fun hjob => ?_⟩⟩
    · obtain ⟨pid, job, hlookup, hid⟩ := hjob
      exact hreplies.left pid job hlookup (hid ▸ hsent)
    · have hrunning := (hongoing hworking hnone).1
      exact (hreplies.all hrunning r hr).resolve_right hjob

/-- Two calls in process, the second of them not granted: its denial overtakes the result of the
first. -/
def overtaken : List Label :=
  [.guest (.enter (some (utf8 "echo")) 4), .guest (.leave (some (utf8 "2")) 1),
    .guest (.enter (some (utf8 "secret")) 6), .guest (.leave (some (utf8 "3")) 1), .guest .yield,
    .forward, .broker (.turn fun _ => 0), .receive, .resume, .guest .settle, .guest .yield,
    .forward, .broker (.call 0), .broker (.answer 0 (.returned (.tuple [.atom "ok", .int 2]))),
    .broker (.die 0), .broker (.turn fun _ => 0), .broker (.turn fun _ => 0),
    .broker (.turn fun _ => 0), .receive, .resume, .guest .settle]

theorem completions_correlated_overtaken : ∃ s,
    System.trace (step echoConfig .inProcess) (fun _ _ => True) .start overtaken = some s ∧
      s.settled = [2, 1] ∧ ∀ p ∈ s.guest.bridge.settled,
        ∃ c, c.id = p.1.id ∧ settlement? c = some p.2 ∧ Completes echoConfig s p.1 c := by
  have hsome : (System.trace (step echoConfig .inProcess) (fun _ _ => True) .start overtaken).map
      Session.settled = some [2, 1] := by decide +kernel
  obtain ⟨s, htrace, hsettled⟩ := Option.map_eq_some_iff.mp hsome
  have htraced : ((system echoConfig .inProcess).restrict fun _ _ _ => True).Reachable s :=
    System.reachable_of_trace (by rfl) htrace
  obtain ⟨-, -, -, hcompletes, -⟩ :=
    completions_correlated Jason.reference_lawful htraced.of_restrict
  exact ⟨s, htrace, hsettled, hcompletes⟩

end Javex.Bridge
