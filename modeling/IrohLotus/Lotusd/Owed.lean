/-
One subscription beside the core it was opened on (`lotusd::subscribe`): what is pending for it and what
the publish under way has for it, which no step takes away but its reader taking it; and that whatever
moves something its filter covers leaves it owed a wake.
-/
import IrohLotus.Lotusd.Watch
import IrohLotus.State.Cover

namespace IrohLotus.State

open Std Outcome Forest IrohLotus.Wire IrohLotus.Storage

/-- The head has its version. -/
theorem Live.exists_head [Externals] {W : World} {base : EnvelopeDigest} {chain : Chain} {store : MemStorage}
    (h : Live W base chain store) : ∃ v, store.versions[chain.head]? = some v ∧ W.StateOf chain.head v := by
  obtain ⟨v, hv⟩ := h.path chain.head (h.coherent.desc h.head) Desc.refl
  exact ⟨v, hv, (h.coherent.versions chain.head v hv).2⟩

end IrohLotus.State

namespace IrohLotus.Lotusd

open Std Outcome IrohLotus.Wire IrohLotus.Storage IrohLotus.State

/-! ## One subscription of a core -/

theorem Subscription.take_some {sub : Subscription} {moved : ChangeNotification} (pending : sub.shared.pending = some moved) :
    sub.take = { sub with shared := { sub.shared with pending := none }, reader := .idle, taken := sub.taken ++ [moved] } := by
  unfold Subscription.take Subscriber.take
  rw [pending]

theorem Subscription.taken_poll (alive : Bool) (sub : Subscription) : (sub.poll alive).taken = sub.taken := by
  unfold Subscription.poll
  split
  · rfl
  · split <;> rfl

/-- What the publish of a movement leaves of a subscription. -/
def Subscription.published (sub : Subscription) (p : Published) : Subscription := { sub with shared := sub.shared.publish p }

namespace System

/-- The subscription registered at `id`. -/
def subscription (σ : System) (id : Nat) : Option Subscription := σ.subscriptions[id]?.join

/-- It has something pending, or the publish under way has something for it. -/
def Owes (σ : System) (id : Nat) (sub : Subscription) : Prop :=
  sub.shared.pending.isSome = true ∨ σ.owed id sub.shared.filter ≠ []

variable {σ σ' : System} {id j : Nat} {sub sub' : Subscription}

theorem subscription_eq_some : σ.subscription id = some sub ↔ σ.subscriptions[id]? = some (some sub) := Option.join_eq_some_iff

theorem subscription_update (σ : System) (j id : Nat) (f : Subscription → Option Subscription) :
    (σ.update j f).subscription id = if j = id then (σ.subscription id).bind f else σ.subscription id := by
  unfold subscription update
  simp only [List.getElem?_modify]
  cases σ.subscriptions[id]? with
  | none => split <;> rfl
  | some o => split <;> cases o <;> rfl

theorem owed_of_mainloop (h : σ'.mainloop = σ.mainloop) (filter : ChangeFilter) : σ'.owed id filter = σ.owed id filter := by
  unfold owed
  rw [h]

theorem owed_idle (h : σ.mainloop = .idle) (filter : ChangeFilter) : σ.owed id filter = [] := by
  unfold owed
  rw [h]

/-- What a step leaves of a subscription whose reader it hands nothing. -/
structure Stays (σ : System) (id : Nat) (sub : Subscription) (σ' : System) (sub' : Subscription) : Prop where
  found : σ'.subscription id = some sub'
  taken : sub'.taken = sub.taken
  openedAt : sub'.openedAt = sub.openedAt
  filter : sub'.shared.filter = sub.shared.filter
  owes : σ.Owes id sub → σ'.Owes id sub'

theorem Stays.of_eq (found : σ'.subscription id = some sub)
    (owed : σ'.owed id sub.shared.filter = σ.owed id sub.shared.filter) : σ.Stays id sub σ' sub :=
  ⟨found, rfl, rfl, rfl, fun h => h.imp_right fun h => owed ▸ h⟩

/-- A step that leaves the reader of `id` with what it had taken. -/
def Beside (id : Nat) (σ σ' : System) : Prop :=
  ∀ sub, σ.subscription id = some sub → ∃ sub', σ'.subscription id = some sub' ∧ sub'.taken = sub.taken

/-- A step of some reader, beside what it takes. -/
theorem stays_update (hsub : σ.subscription id = some sub) {f : Subscription → Option Subscription}
    (hf : ∀ sub', j = id → f sub = some sub' → sub'.taken = sub.taken → sub'.openedAt = sub.openedAt ∧ sub'.shared.filter = sub.shared.filter ∧
      sub'.shared.pending = sub.shared.pending)
    (beside : Beside id σ (σ.update j f)) : ∃ sub', σ.Stays id sub (σ.update j f) sub' := by
  obtain ⟨sub', hsub', htaken⟩ := beside sub hsub
  refine ⟨sub', ?_⟩
  have hat := hsub'
  rw [subscription_update, hsub] at hat
  split at hat
  · rename_i hj
    obtain ⟨hopened, hfilter, hpending⟩ := hf sub' hj hat htaken
    refine ⟨hsub', htaken, hopened, hfilter, fun h => ?_⟩
    unfold Owes
    rw [hpending, hfilter]
    exact h.imp_right fun h => (owed_of_mainloop (σ := σ) rfl _).symm ▸ h
  · cases hat
    exact .of_eq hsub' (owed_of_mainloop rfl _)

/-- The publisher goes on from `next`, having passed over this subscription or not come to it. -/
theorem stays_publish (hsub : σ.subscription id = some sub) : ∃ sub', σ.Stays id sub σ.publish sub' := by
  unfold System.publish
  split
  case h_1 p next hloop =>
    split
    case h_1 s hs =>
      split
      case isTrue hsel =>
        have hat := subscription_update σ next id fun sub => some { sub with shared := sub.shared.merge p }
        by_cases hid : next = id
        · subst hid
          rw [if_pos rfl, hsub] at hat
          exact ⟨_, hat, rfl, rfl, rfl, fun _ => .inl rfl⟩
        · rw [if_neg hid, hsub] at hat
          exact ⟨sub, .of_eq hat (by simp [owed, hloop, Ne.symm hid])⟩
      case isFalse hsel =>
        refine ⟨sub, .of_eq hsub ?_⟩
        by_cases hid : id = next
        · subst hid
          obtain rfl : s = sub := Option.some.inj (Option.some.inj (hs.symm.trans (subscription_eq_some.1 hsub)))
          simp [owed, hloop, hsel]
        · have hlt : id < next + 1 ↔ id < next := by omega
          simp [owed, hloop, hid, hlt]
    case h_2 hs =>
      refine ⟨sub, .of_eq hsub ?_⟩
      have hid : id ≠ next := by
        rintro rfl
        cases hs.symm.trans (subscription_eq_some.1 hsub)
      have hlt : id < next + 1 ↔ id < next := by omega
      simp [owed, hloop, hid, hlt]
    case h_3 hs =>
      refine ⟨sub, .of_eq hsub ?_⟩
      have hid : id < σ.subscriptions.length := (List.getElem?_eq_some_iff.1 (subscription_eq_some.1 hsub)).1
      have hlt : id < next := Nat.lt_of_lt_of_le hid (List.getElem?_eq_none_iff.1 hs)
      simp [owed, hloop, hlt]
  case h_2 p next hloop =>
    have hat := subscription_update σ next id fun sub => some { sub with shared := sub.shared.trySend }
    by_cases hid : next = id
    · subst hid
      rw [if_pos rfl, hsub] at hat
      refine ⟨_, hat, rfl, rfl, rfl, fun h => .inl ?_⟩
      rcases h with h | h
      · exact h
      · simp [owed, hloop] at h
    · rw [if_neg hid, hsub] at hat
      have hlt : id < next + 1 ↔ id < next := by omega
      exact ⟨sub, .of_eq hat (by simp [owed, hloop, Ne.symm hid, hlt])⟩
  case h_3 => exact ⟨sub, .of_eq hsub rfl⟩

/-- A subscription's reader takes what is pending. -/
def takes (σ : System) (id : Nat) : System := σ.update id fun sub => if sub.reader = .checking then some sub.take else some sub

theorem subscription_takes (found : σ.subscription id = some sub) (checking : sub.reader = .checking) :
    (σ.takes id).subscription j = if id = j then some sub.take else σ.subscription j := by
  unfold takes
  rw [subscription_update]
  split
  · rename_i hj
    subst hj
    rw [found, Option.bind_some, if_pos checking]
  · rfl

/-- A reader that waits polls the wake channel. -/
def polled (σ : System) (id : Nat) : System := σ.update id fun sub =>
  if sub.reader = .waiting ∨ sub.reader = .blocked then some (sub.poll σ.alive) else some sub

/-- A blocked reader finds the wake and goes on to look. -/
theorem subscription_polled (found : σ.subscription id = some sub) (blocked : sub.reader = .blocked)
    (woken : sub.shared.wake = true) (j : Nat) : (σ.polled id).subscription j =
      if id = j then some { sub with shared := { sub.shared with wake := false }, reader := .checking } else σ.subscription j := by
  unfold polled
  rw [subscription_update]
  split
  · rename_i hj
    subst hj
    rw [found, Option.bind_some, if_pos (.inr blocked), Subscription.poll, if_pos woken]
  · rfl

/-- The reader of `id` is blocked, with a wake and something to take. -/
def Woken (σ : System) (id : Nat) : Prop := ∃ sub moved, σ.subscription id = some sub ∧ sub.reader = .blocked ∧
  sub.shared.wake = true ∧ sub.shared.pending = some moved

/-- It took what there was. -/
def Sated (σ : System) (id : Nat) : Prop := ∃ sub, σ.subscription id = some sub ∧ sub.reader = .idle ∧
  sub.shared.pending = none ∧ sub.shared.wake = false

/-- What it is published that its filter selects wakes a blocked reader. -/
theorem woken_of_published {p : Published} (found : σ.subscription id = some (sub.published p))
    (selected : sub.shared.filter.matches p.movement = true) (blocked : sub.reader = .blocked) : σ.Woken id := by
  unfold Subscription.published Subscriber.publish at found
  rw [if_pos selected] at found
  exact ⟨_, _, found, blocked, rfl, rfl⟩

/-- A reader that is woken goes on to take what it is told of. -/
theorem Woken.takes (h : σ.Woken id) :
    (∃ looking moved, (σ.polled id).subscription id = some looking ∧ looking.reader = .checking ∧
      looking.shared.pending = some moved) ∧
    ((σ.polled id).takes id).Sated id ∧ ∀ j, id ≠ j → ((σ.polled id).takes id).subscription j = σ.subscription j := by
  obtain ⟨sub, moved, found, blocked, woken, pending⟩ := h
  have hpolled := subscription_polled found blocked woken
  obtain ⟨looking, hlooking, hchecking, hpending, hunwoken⟩ : ∃ looking, (σ.polled id).subscription id = some looking ∧
      looking.reader = .checking ∧ looking.shared.pending = some moved ∧ looking.shared.wake = false :=
    ⟨_, (hpolled id).trans (if_pos rfl), rfl, pending, rfl⟩
  have htook := (subscription_takes (j := id) hlooking hchecking).trans (if_pos rfl)
  rw [Subscription.take_some hpending] at htook
  refine ⟨⟨looking, moved, hlooking, hchecking, hpending⟩, ⟨_, htook, rfl, rfl, hunwoken⟩, fun j hj => ?_⟩
  rw [subscription_takes hlooking hchecking, if_neg hj, hpolled, if_neg hj]

/-- A reader calls `next`, finds nothing and waits. -/
def dozed (σ : System) (id : Nat) : System :=
  ((σ.update id fun sub => if sub.reader = .idle then some sub.call else some sub).takes id).update id fun sub =>
    if sub.reader = .waiting ∨ sub.reader = .blocked then some (sub.poll σ.alive) else some sub

theorem subscription_dozed (found : σ.subscription id = some sub) (idle : sub.reader = .idle)
    (nothing : sub.shared.pending = none) (unwoken : sub.shared.wake = false) (alive : σ.mainloop = .idle) (j : Nat) :
    (σ.dozed id).subscription j = if id = j then some { sub with reader := .blocked } else σ.subscription j := by
  obtain ⟨⟨filter, pending, wake⟩, openedAt, reader, opened, taken⟩ := sub
  obtain rfl : reader = .idle := idle
  obtain rfl : pending = none := nothing
  obtain rfl : wake = false := unwoken
  have halive : σ.alive = true := by
    unfold System.alive
    rw [alive]
  unfold dozed takes
  simp only [subscription_update]
  split
  · rename_i hj
    subst hj
    simp [found, Subscription.call, Subscription.take, Subscriber.take, Subscription.poll, halive]
  · rfl

theorem subscription_register (σ : System) (filter : ChangeFilter) : (σ.register filter).subscription σ.subscriptions.length =
    some ⟨.registered filter, σ.chain.head, .idle, σ.moves.length, []⟩ := by
  unfold subscription register
  rw [List.getElem?_append_right (Nat.le_refl _), Nat.sub_self]
  rfl

theorem subscription_register_of_lt {filter : ChangeFilter} (h : id < σ.subscriptions.length) :
    (σ.register filter).subscription id = σ.subscription id := by
  unfold subscription register
  rw [List.getElem?_append_left h]

variable [Externals]

theorem insert_subscriptions (σ : System) (es : List Envelope) : (σ.insert es).subscriptions = σ.subscriptions := by
  unfold System.insert
  cases hp : (Lotusd.insert σ.chain σ.store es).published <;> simp only [hp]

theorem insert_chain (σ : System) (es : List Envelope) : (σ.insert es).chain = (Lotusd.insert σ.chain σ.store es).chain := by
  unfold System.insert
  cases hp : (Lotusd.insert σ.chain σ.store es).published <;> simp only [hp]

theorem insert_store (σ : System) (es : List Envelope) : (σ.insert es).store = (Lotusd.insert σ.chain σ.store es).store := by
  unfold System.insert
  cases hp : (Lotusd.insert σ.chain σ.store es).published <;> simp only [hp]

theorem subscription_insert (σ : System) (es : List Envelope) : (σ.insert es).subscription id = σ.subscription id := by
  unfold subscription
  rw [insert_subscriptions]

/-- What an insert makes of the chain and the store is for those alone to say. -/
theorem insert_congr (hchain : σ'.chain = σ.chain) (hstore : σ'.store = σ.store) (es : List Envelope) :
    (σ'.insert es).chain = (σ.insert es).chain ∧ (σ'.insert es).store = (σ.insert es).store := by
  rw [insert_chain, insert_store, insert_chain, insert_store, hchain, hstore]
  exact ⟨rfl, rfl⟩

/-- A subscription whose reader a step hands nothing has nothing taken from what it is owed. -/
theorem Step.stays {contents : Set SignedPortion} (step : Step contents σ σ') (hsub : σ.subscription id = some sub)
    (beside : Beside id σ σ') : ∃ sub', σ.Stays id sub σ' sub' := by
  cases step with
  | @insert envelopes idle content =>
    exact ⟨sub, (subscription_insert σ envelopes).trans hsub, rfl, rfl, rfl,
      fun h => .inl (h.resolve_right fun h => h (owed_idle idle _))⟩
  | chain idle step => exact ⟨sub, .of_eq hsub rfl⟩
  | register filter idle =>
    refine ⟨sub, .of_eq (subscription_eq_some.2 ?_) rfl⟩
    have h := subscription_eq_some.1 hsub
    exact (List.getElem?_append_left (List.getElem?_eq_some_iff.1 h).1).trans h
  | publish => exact stays_publish hsub
  | gone idle => exact ⟨sub, hsub, rfl, rfl, rfl, fun h => .inl (h.resolve_right fun h => h (owed_idle idle _))⟩
  | drop j unlocked => exact stays_update hsub (fun sub' _ hf _ => by cases hf) beside
  | call j =>
    refine stays_update hsub (fun sub' _ hf _ => ?_) beside
    split at hf <;> cases hf <;> exact ⟨rfl, rfl, rfl⟩
  | take j =>
    refine stays_update hsub (fun sub' _ hf htaken => ?_) beside
    split at hf
    · cases hf
      unfold Subscription.take Subscriber.take at htaken ⊢
      cases hp : sub.shared.pending with
      | some n => simp [hp] at htaken
      | none => exact ⟨rfl, rfl, rfl⟩
    · cases hf
      exact ⟨rfl, rfl, rfl⟩
  | poll j =>
    refine stays_update hsub (fun sub' _ hf _ => ?_) beside
    split at hf
    · cases hf
      unfold Subscription.poll
      split
      · exact ⟨rfl, rfl, rfl⟩
      · split <;> exact ⟨rfl, rfl, rfl⟩
    · cases hf
      exact ⟨rfl, rfl, rfl⟩
  | cancel j => exact stays_update hsub (fun sub' _ hf _ => by cases hf; exact ⟨rfl, rfl, rfl⟩) beside

/-- A step of some reader that hands it nothing. -/
structure Aside (contents : Set SignedPortion) (σ σ' : System) : Prop where
  step : Step contents σ σ'
  beside : ∀ id, Beside id σ σ'
  chain : σ'.chain = σ.chain
  store : σ'.store = σ.store

theorem aside_update {contents : Set SignedPortion} {f : Subscription → Option Subscription} (step : Step contents σ (σ.update id f))
    (kept : ∀ sub, σ.subscription id = some sub → ∃ sub', f sub = some sub' ∧ sub'.taken = sub.taken) :
    Aside contents σ (σ.update id f) := by
  refine ⟨step, fun j sub hsub => ?_, rfl, rfl⟩
  rw [subscription_update, hsub]
  split
  · rename_i hj
    subst hj
    exact kept sub hsub
  · exact ⟨sub, rfl, rfl⟩

theorem aside_polled {contents : Set SignedPortion} (σ : System) (id : Nat) : Aside contents σ (σ.polled id) := by
  refine aside_update (.poll id) fun sub _ => ?_
  by_cases hr : sub.reader = .waiting ∨ sub.reader = .blocked
  · exact ⟨_, if_pos hr, sub.taken_poll _⟩
  · exact ⟨_, if_neg hr, rfl⟩

/-- A reader with nothing to hear of goes to sleep. -/
theorem dozes {contents : Set SignedPortion} (found : σ.subscription id = some sub) (nothing : sub.shared.pending = none) :
    Relation.ReflTransGen (Aside contents) σ (σ.dozed id) := by
  have hcalls : Aside contents σ (σ.update id fun sub => if sub.reader = .idle then some sub.call else some sub) := by
    refine aside_update (.call id) fun sub _ => ?_
    by_cases hr : sub.reader = .idle
    · exact ⟨_, if_pos hr, rfl⟩
    · exact ⟨_, if_neg hr, rfl⟩
  refine .tail (.tail (.single hcalls) (aside_update (.take id) fun called hfound => ?_)) (aside_polled _ id)
  · rw [subscription_update, if_pos rfl, found, Option.bind_some] at hfound
    have hpending : called.shared.pending = none := by
      split at hfound <;> cases hfound <;> exact nothing
    by_cases hr : called.reader = .checking
    · refine ⟨_, if_pos hr, ?_⟩
      unfold Subscription.take Subscriber.take
      rw [hpending]
    · exact ⟨_, if_neg hr, rfl⟩

/-- Steps beside the readers leave the chain and the store. -/
theorem chain_of_asides {contents : Set SignedPortion} (steps : Relation.ReflTransGen (Aside contents) σ σ') :
    σ'.chain = σ.chain ∧ σ'.store = σ.store := by
  induction steps with
  | refl => exact ⟨rfl, rfl⟩
  | tail _ step ih => exact ⟨step.chain.trans ih.1, step.store.trans ih.2⟩

/-! ## A publish goes through -/

theorem aside_publish {contents : Set SignedPortion} (σ : System) : Aside contents σ σ.publish := by
  refine ⟨.publish, fun id sub hsub => ?_, ?_, ?_⟩
  · obtain ⟨sub', hstays⟩ := stays_publish hsub
    exact ⟨sub', hstays.found, hstays.taken⟩
  · unfold System.publish
    repeat' split
    all_goals rfl
  · unfold System.publish
    repeat' split
    all_goals rfl

/-- The publisher is done with the subscription at `next`. -/
theorem publishes_one (contents : Set SignedPortion) {p : Published} {next : Nat} {here : Option Subscription}
    (loop : σ.mainloop = .publishing p next false) (found : σ.subscriptions[next]? = some here) :
    ∃ σ', Relation.ReflTransGen (Aside contents) σ σ' ∧ σ'.mainloop = .publishing p (next + 1) false ∧
      σ'.subscriptions.length = σ.subscriptions.length ∧
      ∀ id, σ'.subscription id = if id = next then here.map (·.published p) else σ.subscription id := by
  have hat : σ.subscription next = here := by
    unfold subscription
    rw [found]
    rfl
  cases here with
  | none =>
    have hpublish : σ.publish = { σ with mainloop := .publishing p (next + 1) false } := by
      simp only [System.publish, loop, found]
    refine ⟨σ.publish, .single (aside_publish σ), by rw [hpublish], by rw [hpublish], fun id => ?_⟩
    rw [hpublish]
    split
    · rename_i hid
      rw [hid]
      exact hat
    · rfl
  | some sub =>
    by_cases hsel : sub.shared.filter.matches p.movement = true
    · have hmerge : σ.publish = { σ.update next (fun sub => some { sub with shared := sub.shared.merge p }) with
          mainloop := .publishing p next true } := by
        simp only [System.publish, loop, found, if_pos hsel]
      have hwake : σ.publish.publish = { σ.publish.update next (fun sub => some { sub with shared := sub.shared.trySend }) with
          mainloop := .publishing p (next + 1) false } := by
        rw [hmerge]
        rfl
      refine ⟨σ.publish.publish, .tail (.single (aside_publish σ)) (aside_publish _), by rw [hwake], ?_, fun id => ?_⟩
      · rw [hwake, hmerge]
        simp [update]
      · have hmerged := subscription_update σ next id fun sub => some { sub with shared := sub.shared.merge p }
        have hsent := subscription_update σ.publish next id fun sub => some { sub with shared := sub.shared.trySend }
        have hwoken : σ.publish.publish.subscription id =
            (σ.publish.update next fun sub => some { sub with shared := sub.shared.trySend }).subscription id := by
          rw [hwake]
          rfl
        have hmid : σ.publish.subscription id =
            (σ.update next fun sub => some { sub with shared := sub.shared.merge p }).subscription id := by
          rw [hmerge]
          rfl
        rw [hwoken, hsent, hmid, hmerged]
        by_cases hid : id = next
        · subst hid
          rw [if_pos rfl, if_pos rfl, if_pos rfl, hat]
          show some _ = some (sub.published p)
          unfold Subscription.published Subscriber.publish Subscriber.push
          rw [if_pos hsel]
        · rw [if_neg (Ne.symm hid), if_neg (Ne.symm hid), if_neg hid]
    · have hpublish : σ.publish = { σ with mainloop := .publishing p (next + 1) false } := by
        simp only [System.publish, loop, found, if_neg hsel]
      refine ⟨σ.publish, .single (aside_publish σ), by rw [hpublish], by rw [hpublish], fun id => ?_⟩
      rw [hpublish]
      split
      · rename_i hid
        rw [hid]
        show σ.subscription next = some (sub.published p)
        unfold Subscription.published Subscriber.publish
        rw [hat, if_neg hsel]
      · rfl

/-- A publish ends, each subscription it had before it published to. -/
theorem publishes (contents : Set SignedPortion) {p : Published} : ∀ (left : Nat) {next : Nat} {σ : System},
    σ.mainloop = .publishing p next false → σ.subscriptions.length ≤ next + left →
      ∃ σ', Relation.ReflTransGen (Aside contents) σ σ' ∧ σ'.mainloop = .idle ∧
        ∀ id, σ'.subscription id = if id < next then σ.subscription id else (σ.subscription id).map (·.published p)
  | left, next, σ, loop, short => by
    cases hhere : σ.subscriptions[next]? with
    | none =>
      have hpublish : σ.publish = { σ with mainloop := .idle } := by
        simp only [System.publish, loop, hhere]
      refine ⟨σ.publish, .single (aside_publish σ), by rw [hpublish], fun id => ?_⟩
      rw [hpublish]
      split
      · rfl
      · rename_i hid
        have hnone : σ.subscription id = none := by
          have hlength := List.getElem?_eq_none_iff.1 hhere
          unfold subscription
          rw [List.getElem?_eq_none_iff.2 (by omega)]
          rfl
        show σ.subscription id = _
        rw [hnone]
        rfl
    | some here =>
      obtain ⟨τ, steps, hloop, hlength, hτ⟩ := publishes_one contents loop hhere
      match left with
      | 0 =>
        have := (List.getElem?_eq_some_iff.1 hhere).1
        omega
      | left + 1 =>
        obtain ⟨σ', steps', hidle, hσ'⟩ := publishes contents left hloop (by omega)
        refine ⟨σ', steps.trans steps', hidle, fun id => ?_⟩
        have hat : σ.subscription next = here := by
          unfold subscription
          rw [hhere]
          rfl
        rw [hσ', hτ]
        by_cases hid : id = next
        · subst hid
          rw [if_pos (Nat.lt_succ_self id), if_pos rfl, if_neg (Nat.lt_irrefl id), hat]
        · rw [if_neg hid]
          by_cases hlt : id < next
          · rw [if_pos hlt, if_pos (Nat.lt_succ_of_lt hlt)]
          · rw [if_neg hlt, if_neg (by omega)]

/-- What an insert published goes on to every subscription, and a blocked reader is woken for it where its
filter selects it. -/
theorem insert_tells (contents : Set SignedPortion) {es : List Envelope} {p : Published}
    (published : (Lotusd.insert σ.chain σ.store es).published = some p) :
    ∃ σ', Relation.ReflTransGen (Aside contents) (σ.insert es) σ' ∧ σ'.mainloop = .idle ∧
      (σ'.chain = (σ.insert es).chain ∧ σ'.store = (σ.insert es).store) ∧
      ∀ {id sub}, σ.subscription id = some sub → sub.shared.filter.matches p.movement = true → sub.reader = .blocked →
        σ'.Woken id := by
  have hloop : (σ.insert es).mainloop = .publishing p 0 false := by
    unfold System.insert
    simp only [published]
  obtain ⟨σ', steps, hidle, htold⟩ := publishes contents _ hloop (Nat.le_add_left _ 0)
  refine ⟨σ', steps, hidle, chain_of_asides steps, fun {id sub} hsub selected blocked => ?_⟩
  have hfound : σ'.subscription id = some (sub.published p) := by
    rw [htold, if_neg (Nat.not_lt_zero _), subscription_insert, hsub]
    rfl
  exact woken_of_published hfound selected blocked

end System

/-! ## What moves it -/

/-- Something read of the version at the head. -/
def System.reads {α : Type} (σ : System) (f : Version → α) : Option α := σ.store.versions[σ.chain.head]?.map f

section Moves

variable [Externals] {W : World} {base : EnvelopeDigest} {chain : Chain} {store : MemStorage}

theorem insert_eq (chain : Chain) (store : MemStorage) (es : List Envelope) :
    ((insert chain store es).chain, (insert chain store es).store) = (chain.insertBatch es store).2 := by
  unfold insert
  dsimp only
  split
  · split <;> rfl
  · rfl

/-- A core that inserts stays one the chain's calls reach. -/
theorem System.insert_reachable {contents : Set SignedPortion} {σ : System} (h : Reachable contents σ.chain σ.store)
    {es : List Envelope} (content : ∀ e ∈ es, e.toSignedPortion ∈ contents) :
    Reachable contents (σ.insert es).chain (σ.insert es).store := by
  rw [System.insert_chain, System.insert_store]
  exact h.insertBatch content (Prod.ext rfl (insert_eq _ _ _).symm)

/-- Where the head stays, so does what is read of its version. -/
theorem Live.reads_eq {α : Type} {base' : EnvelopeDigest} {chain' : Chain} {store' : MemStorage} (h : Live W base chain store)
    (h' : Live W base' chain' store') (head : chain'.head = chain.head) (f : Version → α) :
    store'.versions[chain'.head]?.map f = store.versions[chain.head]?.map f := by
  obtain ⟨v, hv, hstate⟩ := h.exists_head
  obtain ⟨v', hv', hstate'⟩ := h'.exists_head
  rw [head] at hstate'
  obtain rfl := hstate'.unique hstate
  rw [hv, hv']

/-- An insert that moves what is framed publishes a movement that says so. -/
theorem insert_touches {α : Type} {f : Version → α} {k : NamespaceKey} {q : Option SubkeyPath} (framed : Framed f k q)
    {es : List Envelope} (h : Live W base chain store) (content : ∀ e ∈ es, e.toSignedPortion ∈ W.contents)
    (moved : (insert chain store es).store.versions[(insert chain store es).chain.head]?.map f ≠ store.versions[chain.head]?.map f) :
    ∃ p, (insert chain store es).published = some p ∧ p.movement.changes.touches k q = true := by
  obtain ⟨hlive, ⟨-, hhead⟩ | ⟨movement, hsome, hdiff⟩⟩ := insert_publishes h content
  · exact absurd (Live.reads_eq h hlive hhead f) moved
  refine ⟨_, hsome, ?_⟩
  obtain ⟨v, hv, hstate⟩ := h.exists_head
  obtain ⟨v', hv', hstate'⟩ := hlive.exists_head
  have hstored : (insert chain store es).store.Stored chain.head := by
    obtain ⟨-, hmoved⟩ := h.insertBatch content
    obtain ⟨hchain, hstore⟩ := Prod.ext_iff.1 (insert_eq chain store es)
    rw [← hchain, ← hstore] at hmoved
    cases hmoved with
    | grew log => exact log.stored h.head
    | cut log head => exact head ▸ hlive.head
  refine hlive.coherent.touches_of_ne framed hstored hlive.head hstate hstate' (fun heq => moved ?_) hdiff
  rw [hv, hv', Option.map_some, Option.map_some, heq]

omit [Externals] in
theorem publish_keeps (σ : System) : σ.publish.chain = σ.chain ∧ σ.publish.store = σ.store := by
  unfold System.publish
  split
  · split
    · split <;> exact ⟨rfl, rfl⟩
    · exact ⟨rfl, rfl⟩
    · exact ⟨rfl, rfl⟩
  · exact ⟨rfl, rfl⟩
  · exact ⟨rfl, rfl⟩

/-- A step that moves what is framed leaves every subscription whose filter covers it owed a wake. -/
theorem System.Step.owes {α : Type} {f : Version → α} {k : NamespaceKey} {q : Option SubkeyPath} (framed : Framed f k q)
    {σ σ' : System} (h : Invariant W σ) (step : System.Step W.contents σ σ') (moved : σ'.reads f ≠ σ.reads f) {id : Nat}
    {sub : Subscription}
    (covers : ∀ movement : Movement, movement.changes.touches k q = true → sub.shared.filter.matches movement = true) :
    σ'.Owes id sub := by
  obtain ⟨base, hl⟩ := h.live
  have hsame : σ'.chain = σ.chain ∧ σ'.store = σ.store → False := by
    rintro ⟨hchain, hstore⟩
    unfold reads at moved
    rw [hchain, hstore] at moved
    exact moved rfl
  cases step with
  | @insert envelopes idle content =>
    unfold reads at moved
    rw [insert_chain, insert_store] at moved
    obtain ⟨p, hp, htouches⟩ := insert_touches framed hl content moved
    have hmatches := covers _ htouches
    refine .inr ?_
    unfold System.insert System.owed
    simp [hp, hmatches]
  | @chain chain store idle step =>
    have hlive : ∃ base', Live W base' chain store ∧ chain.head = σ.chain.head := by
      rcases step with ⟨cut, hcut⟩ | ⟨clock, hclock⟩
      · obtain ⟨rfl, rfl⟩ := Prod.ext_iff.1 hcut
        obtain ⟨base', hl', -⟩ := hl.compact cut
        refine ⟨base', hl', ?_⟩
        unfold Chain.compact Chain.compacted
        split <;> rfl
      · obtain ⟨rfl, rfl⟩ := Prod.ext_iff.1 hclock
        obtain ⟨base', hl', -⟩ := hl.step (.tick clock)
        exact ⟨base', hl', rfl⟩
    obtain ⟨base', hl', hhead⟩ := hlive
    exact absurd (Live.reads_eq hl hl' hhead f) moved
  | register filter idle => exact (hsame ⟨rfl, rfl⟩).elim
  | publish => exact (hsame (publish_keeps σ)).elim
  | gone idle => exact (hsame ⟨rfl, rfl⟩).elim
  | drop j unlocked => exact (hsame ⟨rfl, rfl⟩).elim
  | call j => exact (hsame ⟨rfl, rfl⟩).elim
  | take j => exact (hsame ⟨rfl, rfl⟩).elim
  | poll j => exact (hsame ⟨rfl, rfl⟩).elim
  | cancel j => exact (hsame ⟨rfl, rfl⟩).elim

/-! ## A reader asleep -/

/-- A reader asleep on an empty channel, with nothing being published, has nothing to hear of. -/
theorem untold_of_asleep {σ : System} (h : Invariant W σ) (idle : σ.mainloop = .idle) {id : Nat} {sub : Subscription}
    (found : σ.subscription id = some sub) (blocked : sub.reader = .blocked) (unwoken : sub.shared.wake = false) :
    sub.shared.pending = none ∧ ¬ σ.Owes id sub := by
  have hpending : sub.shared.pending = none := by
    by_contra hpending
    rcases (h.kept id sub (System.subscription_eq_some.1 found)).woken (Option.isSome_iff_ne_none.2 hpending) (.inr blocked) with hwake | ⟨p, hloop⟩
    · rw [unwoken] at hwake
      cases hwake
    · rw [idle] at hloop
      cases hloop
  refine ⟨hpending, fun howes => ?_⟩
  rcases howes with hsome | howed
  · rw [hpending] at hsome
    cases hsome
  · exact howed (System.owed_idle idle _)

omit [Externals] in
/-- The last notification carries the head of the last movement. -/
theorem head_of_accounted {moves : List Published} {notifications : List ChangeNotification} (h : Accounted moves notifications) :
    notifications.getLast?.map (·.head) = moves.getLast?.map (·.head) := by
  obtain ⟨groups, rfl, hreports⟩ := h
  rcases List.eq_nil_or_concat' notifications with rfl | ⟨notifications, n, rfl⟩
  · rw [List.forall₂_nil_right_iff] at hreports
    subst hreports; rfl
  · have hlast := List.forall₂_drop_append groups notifications [n] hreports
    obtain ⟨group, rest, hgroup, hrest, hdrop⟩ := List.forall₂_cons_right_iff.1 hlast
    rw [List.forall₂_nil_right_iff] at hrest
    obtain ⟨p, hp, hhead⟩ := Option.map_eq_some_iff.1 hgroup.head
    rw [← List.take_append_drop notifications.length groups, hdrop, hrest, List.flatten_append, List.flatten_singleton,
      List.getLast?_concat, List.getLast?_append, hp]
    exact congrArg some hhead.symm

omit [Externals] in
theorem head_of_spans {source head : EnvelopeDigest} {moves : List Published} (h : Spans source moves head) :
    (moves.getLast?.map (·.head)).getD source = head := by
  induction h with
  | nil => rfl
  | @cons p span head rest ih =>
    cases span with
    | nil => exact rest.eq_of_nil
    | cons q span => rwa [List.getLast?_cons_cons]

end Moves

end IrohLotus.Lotusd
