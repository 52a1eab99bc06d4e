/-
Subscriptions beside a running core. The mainloop inserts and publishes, one subscription at a time
and for each first the merge and then the wake; readers call `next`, take, block on the wake channel
and are cancelled between any two of these steps.

Beside the state a run keeps the movements published so far and what each reader took, to say what
became of every movement.
-/
import IrohLotus.Lotusd.Subscribe

namespace IrohLotus.Lotusd

open Std Outcome IrohLotus.Wire IrohLotus.Storage IrohLotus.State

/-! ## The core -/

section Insert

variable [Externals]

/-- What `Core::insert` leaves: its outcome, the chain and store, and the movement it published. -/
structure Inserted where
  outcome : Res Error Insert
  chain : Chain
  store : MemStorage
  published : Option Published

/-- Ingests a run of envelopes, and publishes the movement of the head also where the run was refused
part-way. -/
def insert (chain : Chain) (store : MemStorage) (envelopes : List Envelope) : Inserted :=
  let differ := ChangeDiffer.openedAt chain.head
  let (outcome, chain, store) := chain.insertBatch envelopes store
  if chain.head ≠ differ.source then
    match differ.diff store chain.head with
    | .ok movement => ⟨outcome, chain, store, some ⟨differ.source, chain.head, movement⟩⟩
    | .error e => ⟨.error e, chain, store, none⟩
  else ⟨outcome, chain, store, none⟩

end Insert

/-! ## Readers -/

/-- Where a reader's `next` stands: not called, about to take, found nothing and about to receive,
or blocked on the wake channel. -/
inductive Reader where
  | idle
  | checking
  | waiting
  | blocked
deriving DecidableEq

/-- A subscription with its reader, and the record of it: how many movements were published before it
opened, and what its reader has taken. -/
structure Subscription where
  shared : Subscriber
  openedAt : EnvelopeDigest
  reader : Reader
  opened : Nat
  taken : List ChangeNotification
deriving DecidableEq

namespace Subscription

/-- `next` is called. -/
def call (sub : Subscription) : Subscription := { sub with reader := .checking }

/-- The loop of `next` takes what is pending, and returns it or goes on to wait. -/
def take (sub : Subscription) : Subscription :=
  match sub.shared.take with
  | (some notification, shared) => { sub with shared, reader := .idle, taken := sub.taken ++ [notification] }
  | (none, shared) => { sub with shared, reader := .waiting }

/-- `recv` is polled: it consumes a wake, ends with the core, or blocks. -/
def poll (alive : Bool) (sub : Subscription) : Subscription :=
  if sub.shared.wake then { sub with shared := { sub.shared with wake := false }, reader := .checking }
  else if alive then { sub with reader := .blocked }
  else { sub with reader := .idle }

/-- The future of `next` is dropped. -/
def cancel (sub : Subscription) : Subscription := { sub with reader := .idle }

end Subscription

/-! ## The system -/

/-- What the task that owns the core is doing: nothing, publishing to the subscription at `next`,
which may be merged but not yet woken, or it is gone. -/
inductive Mainloop where
  | idle
  | publishing (p : Published) (next : Nat) (merged : Bool)
  | gone
deriving DecidableEq

/-- A core with its subscriptions; a deregistered one leaves its place empty. -/
structure System where
  chain : Chain
  store : MemStorage
  subscriptions : List (Option Subscription)
  mainloop : Mainloop
  moves : List Published

namespace System

variable [Externals]

def insert (σ : System) (envelopes : List Envelope) : System :=
  let inserted := Lotusd.insert σ.chain σ.store envelopes
  match inserted.published with
  | some p =>
    { σ with chain := inserted.chain, store := inserted.store, mainloop := .publishing p 0 false, moves := σ.moves ++ [p] }
  | none => { σ with chain := inserted.chain, store := inserted.store }

/-- `Subscriptions::register`, at the head the chain stands at. -/
def register (σ : System) (filter : ChangeFilter) : System :=
  { σ with subscriptions := σ.subscriptions ++ [some ⟨.registered filter, σ.chain.head, .idle, σ.moves.length, []⟩] }

/-- One subscription changed, or dropped. -/
def update (σ : System) (id : Nat) (f : Subscription → Option Subscription) : System :=
  { σ with subscriptions := σ.subscriptions.modify id (·.bind f) }

/-- One step of `Subscriptions::publish`. -/
def publish (σ : System) : System :=
  match σ.mainloop with
  | .publishing p next false =>
    match σ.subscriptions[next]? with
    | some (some sub) =>
      if sub.shared.filter.matches p.movement then
        { σ.update next (fun sub => some { sub with shared := sub.shared.merge p }) with mainloop := .publishing p next true }
      else { σ with mainloop := .publishing p (next + 1) false }
    | some none => { σ with mainloop := .publishing p (next + 1) false }
    | none => { σ with mainloop := .idle }
  | .publishing p next true =>
    { σ.update next (fun sub => some { sub with shared := sub.shared.trySend }) with
      mainloop := .publishing p (next + 1) false }
  | _ => σ

def alive (σ : System) : Bool :=
  match σ.mainloop with
  | .gone => false
  | _ => true

/-- The registry's lock is free. -/
def Unlocked (σ : System) : Prop := ∀ p next merged, σ.mainloop ≠ .publishing p next merged

/-- One step of any of the tasks. -/
inductive Step (contents : Set SignedPortion) (σ : System) : System → Prop
  | insert {envelopes : List Envelope} (idle : σ.mainloop = .idle) (content : ∀ e ∈ envelopes, e.toSignedPortion ∈ contents) :
    Step contents σ (σ.insert envelopes)
  | chain {chain : Chain} {store : MemStorage} (idle : σ.mainloop = .idle)
    (step : (∃ cut, (chain, store) = (σ.chain.compact cut σ.store).2) ∨
      ∃ clock, (chain, store) = (σ.chain, { σ.store with clock })) : Step contents σ { σ with chain, store }
  | register (filter : ChangeFilter) (idle : σ.mainloop = .idle) : Step contents σ (σ.register filter)
  | publish : Step contents σ σ.publish
  | gone (idle : σ.mainloop = .idle) : Step contents σ { σ with mainloop := .gone }
  | drop (id : Nat) (unlocked : σ.Unlocked) : Step contents σ (σ.update id fun _ => none)
  | call (id : Nat) : Step contents σ (σ.update id fun sub => if sub.reader = .idle then some sub.call else some sub)
  | take (id : Nat) : Step contents σ (σ.update id fun sub => if sub.reader = .checking then some sub.take else some sub)
  | poll (id : Nat) : Step contents σ (σ.update id fun sub =>
      if sub.reader = .waiting ∨ sub.reader = .blocked then some (sub.poll σ.alive) else some sub)
  | cancel (id : Nat) : Step contents σ (σ.update id fun sub => some sub.cancel)

/-- The states a core and its readers can come to, from a chain nobody watches yet. -/
inductive Runs (contents : Set SignedPortion) : System → Prop
  | start {chain : Chain} {store : MemStorage} (reachable : Reachable contents chain store) :
    Runs contents ⟨chain, store, [], .idle, []⟩
  | step {σ σ' : System} (before : Runs contents σ) (step : Step contents σ σ') : Runs contents σ'

/-- What the publish under way has still to merge into the subscription at `id`. -/
def owed (σ : System) (id : Nat) (filter : ChangeFilter) : List Published :=
  match σ.mainloop with
  | .publishing p next merged =>
    if id < next ∨ id = next ∧ merged = true then [] else [p].filter fun p => filter.matches p.movement
  | _ => []

end System

/-! ## What became of each movement -/

/-- A notification of a run of movements: it leads from where the first of them started to where the last led, and it
touches and orphans what any of them did, and nothing that none of them did. -/
structure Reports (group : List Published) (n : ChangeNotification) : Prop where
  source : group.head?.map (·.source) = some n.source
  head : group.getLast?.map (·.head) = some n.head
  includes : ∀ p ∈ group, n.movement.Includes p.movement
  touched : ∀ key path, n.movement.changes.touches key path = true →
    ∃ p ∈ group, p.movement.changes.touches key path = true
  orphaned : ∀ digest ∈ n.movement.orphaned, ∃ p ∈ group, digest ∈ p.movement.orphaned

/-- The movements fall into consecutive groups, each reported by one of the notifications. -/
def Accounted (moves : List Published) (notifications : List ChangeNotification) : Prop :=
  ∃ groups : List (List Published), groups.flatten = moves ∧ List.Forall₂ Reports groups notifications

/-- A movement on its own is its own report. -/
theorem Reports.single (p : Published) : Reports [p] (Subscriber.accumulate none p) where
  source := rfl
  head := rfl
  includes := by
    intro q hq
    obtain rfl := List.mem_singleton.1 hq
    exact .refl _
  touched := fun key path h => ⟨p, List.mem_singleton_self p, h⟩
  orphaned := fun digest h => ⟨p, List.mem_singleton_self p, h⟩

/-- A movement merged into a notification is reported with what the notification reported before. -/
theorem Reports.snoc {group : List Published} {n : ChangeNotification} (h : Reports group n) {p : Published}
    (formed : p.movement.changes.Formed) : Reports (group ++ [p]) (Subscriber.accumulate (some n) p) where
  source := by
    obtain ⟨first, hfirst, hsource⟩ := Option.map_eq_some_iff.1 h.source
    rw [List.head?_append, hfirst]
    exact congrArg some hsource
  head := by
    rw [List.getLast?_concat]; rfl
  includes := by
    intro q hq
    rcases List.mem_append.1 hq with hq | hq
    · exact (Movement.includes_merge_left formed).trans (h.includes q hq)
    · obtain rfl := List.mem_singleton.1 hq
      exact Movement.includes_merge_right formed
  touched := by
    intro key path htouches
    rcases (ChangeSet.touches_merge formed).1 htouches with hbefore | hnow
    · obtain ⟨q, hq, hqt⟩ := h.touched key path hbefore
      exact ⟨q, List.mem_append_left _ hq, hqt⟩
    · exact ⟨p, List.mem_append_right _ (List.mem_singleton_self p), hnow⟩
  orphaned := by
    intro digest hdigest
    rcases Movement.mem_orphaned_merge.1 hdigest with hbefore | hnow
    · obtain ⟨q, hq, hqo⟩ := h.orphaned digest hbefore
      exact ⟨q, List.mem_append_left _ hq, hqo⟩
    · exact ⟨p, List.mem_append_right _ (List.mem_singleton_self p), hnow⟩

namespace Accounted

variable {moves : List Published} {taken : List ChangeNotification} {pending : Option ChangeNotification}

/-- A movement that joins what is pending joins the last group, or starts one. -/
theorem accumulate (h : Accounted moves (taken ++ pending.toList)) {p : Published} (formed : p.movement.changes.Formed) :
    Accounted (moves ++ [p]) (taken ++ [Subscriber.accumulate pending p]) := by
  obtain ⟨groups, rfl, hreports⟩ := h
  cases pending with
  | none =>
    rw [Option.toList_none, List.append_nil] at hreports
    exact ⟨groups ++ [[p]], by rw [List.flatten_append, List.flatten_singleton],
      List.rel_append hreports (.cons (.single p) .nil)⟩
  | some n =>
    have htaken := List.forall₂_take_append groups taken [n] hreports
    have hlast := List.forall₂_drop_append groups taken [n] hreports
    obtain ⟨g, rest, hg, hrest, hdrop⟩ := List.forall₂_cons_right_iff.1 hlast
    rw [List.forall₂_nil_right_iff] at hrest
    refine ⟨groups.take taken.length ++ [g ++ [p]], ?_, List.rel_append htaken (.cons (hg.snoc formed) .nil)⟩
    conv_rhs => rw [← List.take_append_drop taken.length groups, hdrop, hrest]
    simp

/-- The notifications carry heads in the order of the movements. -/
theorem heads {groups : List (List Published)} {ns : List ChangeNotification} (h : List.Forall₂ Reports groups ns) :
    (ns.map (·.head)).Sublist (groups.flatten.map (·.head)) := by
  induction h with
  | nil => exact .slnil
  | @cons group n groups ns hreports rest ih =>
    obtain ⟨last, hlast, hhead⟩ := Option.map_eq_some_iff.1 hreports.head
    have hmem : n.head ∈ group.map (·.head) := List.mem_map.2 ⟨last, List.mem_of_getLast? hlast, hhead⟩
    rw [List.flatten_cons, List.map_append]
    exact (List.singleton_sublist.2 hmem).append ih

end Accounted

/-- What a run keeps for the subscription at `id`. -/
structure Kept (σ : System) (id : Nat) (sub : Subscription) : Prop where
  opened : sub.opened ≤ σ.moves.length
  spans : Spans sub.openedAt (σ.moves.drop sub.opened) σ.chain.head
  accounted : ∃ merged, merged ++ σ.owed id sub.shared.filter =
      (σ.moves.drop sub.opened).filter (fun p => sub.shared.filter.matches p.movement) ∧
    Accounted merged (sub.taken ++ sub.shared.pending.toList)
  woken : sub.shared.pending.isSome = true → sub.reader = .waiting ∨ sub.reader = .blocked →
    sub.shared.wake = true ∨ ∃ p, σ.mainloop = .publishing p id true

/-- A step that published nothing and merged nothing into this subscription. -/
structure Beside (σ σ' : System) (id : Nat) (sub sub' : Subscription) : Prop where
  moves : σ'.moves = σ.moves
  head : σ'.chain.head = σ.chain.head
  owed : σ'.owed id sub.shared.filter = σ.owed id sub.shared.filter
  same : sub'.opened = sub.opened ∧ sub'.openedAt = sub.openedAt ∧ sub'.shared.filter = sub.shared.filter
  told : sub'.taken ++ sub'.shared.pending.toList = sub.taken ++ sub.shared.pending.toList

section Kept

variable {σ σ' : System} {id : Nat} {sub sub' : Subscription}

theorem Kept.beside (h : Kept σ id sub) (hb : Beside σ σ' id sub sub')
    (hwoken : sub'.shared.pending.isSome = true → sub'.reader = .waiting ∨ sub'.reader = .blocked →
      sub'.shared.wake = true ∨ ∃ p, σ'.mainloop = .publishing p id true) : Kept σ' id sub' := by
  obtain ⟨hopened, hopenedAt, hfilter⟩ := hb.same
  refine ⟨?_, ?_, ?_, hwoken⟩
  · rw [hopened, hb.moves]; exact h.opened
  · rw [hopened, hopenedAt, hb.moves, hb.head]; exact h.spans
  · rw [hopened, hfilter, hb.moves, hb.owed, hb.told]; exact h.accounted

/-- Nothing happened to this subscription, and the publisher is not at it. -/
theorem Kept.unchanged (h : Kept σ id sub) (moves : σ'.moves = σ.moves) (head : σ'.chain.head = σ.chain.head)
    (owed : σ'.owed id sub.shared.filter = σ.owed id sub.shared.filter)
    (mid : ∀ p, σ.mainloop = .publishing p id true → σ'.mainloop = .publishing p id true) : Kept σ' id sub := by
  refine h.beside ⟨moves, head, owed, ⟨rfl, rfl, rfl⟩, rfl⟩ fun hp hr => ?_
  rcases h.woken hp hr with hwake | ⟨p, hmid⟩
  · exact .inl hwake
  · exact .inr ⟨p, mid p hmid⟩

/-- The reader's own steps. -/
theorem Kept.call (h : Kept σ id sub) (same : σ'.moves = σ.moves ∧ σ'.chain = σ.chain ∧ σ'.mainloop = σ.mainloop) :
    Kept σ' id sub.call := by
  obtain ⟨hmoves, hchain, hloop⟩ := same
  refine h.beside ⟨hmoves, by rw [hchain], by unfold System.owed; rw [hloop], ⟨rfl, rfl, rfl⟩, rfl⟩ ?_
  rintro - (hr | hr) <;> cases hr

theorem Kept.cancel (h : Kept σ id sub) (same : σ'.moves = σ.moves ∧ σ'.chain = σ.chain ∧ σ'.mainloop = σ.mainloop) :
    Kept σ' id sub.cancel := by
  obtain ⟨hmoves, hchain, hloop⟩ := same
  refine h.beside ⟨hmoves, by rw [hchain], by unfold System.owed; rw [hloop], ⟨rfl, rfl, rfl⟩, rfl⟩ ?_
  rintro - (hr | hr) <;> cases hr

theorem Kept.take (h : Kept σ id sub) (same : σ'.moves = σ.moves ∧ σ'.chain = σ.chain ∧ σ'.mainloop = σ.mainloop) :
    Kept σ' id sub.take := by
  obtain ⟨hmoves, hchain, hloop⟩ := same
  have howed : σ'.owed id sub.shared.filter = σ.owed id sub.shared.filter := by unfold System.owed; rw [hloop]
  unfold Subscription.take Subscriber.take
  cases hp : sub.shared.pending with
  | some n =>
    refine h.beside ⟨hmoves, by rw [hchain], howed, ⟨rfl, rfl, rfl⟩, ?_⟩ nofun
    simp [hp]
  | none =>
    refine h.beside ⟨hmoves, by rw [hchain], howed, ⟨rfl, rfl, rfl⟩, ?_⟩ nofun
    simp [hp]

theorem Kept.poll (h : Kept σ id sub) (alive : Bool) (hr : sub.reader = .waiting ∨ sub.reader = .blocked)
    (same : σ'.moves = σ.moves ∧ σ'.chain = σ.chain ∧ σ'.mainloop = σ.mainloop) : Kept σ' id (sub.poll alive) := by
  obtain ⟨hmoves, hchain, hloop⟩ := same
  have howed : σ'.owed id sub.shared.filter = σ.owed id sub.shared.filter := by unfold System.owed; rw [hloop]
  unfold Subscription.poll
  split
  · refine h.beside ⟨hmoves, by rw [hchain], howed, ⟨rfl, rfl, rfl⟩, rfl⟩ ?_
    rintro - (hr | hr) <;> cases hr
  · split
    · refine h.beside ⟨hmoves, by rw [hchain], howed, ⟨rfl, rfl, rfl⟩, rfl⟩ fun hp _ => ?_
      rw [hloop]
      exact h.woken hp hr
    · refine h.beside ⟨hmoves, by rw [hchain], howed, ⟨rfl, rfl, rfl⟩, rfl⟩ ?_
      rintro - (hr | hr) <;> cases hr

/-- The publisher merged the movement into this subscription. -/
theorem Kept.merge (h : Kept σ id sub) {p : Published} (hloop : σ.mainloop = .publishing p id false)
    (hloop' : σ'.mainloop = .publishing p id true) (moves : σ'.moves = σ.moves) (head : σ'.chain = σ.chain)
    (hsel : sub.shared.filter.matches p.movement = true) (formed : p.movement.changes.Formed) :
    Kept σ' id { sub with shared := sub.shared.merge p } := by
  refine ⟨by rw [moves]; exact h.opened, by rw [moves, head]; exact h.spans, ?_, fun _ _ => .inr ⟨p, hloop'⟩⟩
  obtain ⟨merged, hmerged, haccounted⟩ := h.accounted
  have howed : σ.owed id sub.shared.filter = [p] := by simp [System.owed, hloop, hsel]
  have howed' : σ'.owed id sub.shared.filter = [] := by simp [System.owed, hloop']
  refine ⟨merged ++ [p], ?_, haccounted.accumulate formed⟩
  show merged ++ [p] ++ σ'.owed id sub.shared.filter = _
  rw [howed', List.append_nil, moves]
  rw [howed] at hmerged
  exact hmerged

end Kept

/-! ## Runs -/

section Runs

variable [Externals] {W : World} {base : EnvelopeDigest} {chain : Chain} {store : MemStorage}

/-- `Core::insert` publishes exactly the movement of the head, whatever became of the run. -/
theorem insert_publishes {es : List Envelope} (h : Live W base chain store) (content : ∀ e ∈ es, e.toSignedPortion ∈ W.contents) :
    Live W base (insert chain store es).chain (insert chain store es).store ∧
      ((insert chain store es).published = none ∧ (insert chain store es).chain.head = chain.head ∨
        ∃ movement, (insert chain store es).published = some ⟨chain.head, (insert chain store es).chain.head, movement⟩ ∧
          (ChangeDiffer.openedAt chain.head).diff (insert chain store es).store (insert chain store es).chain.head = .ok movement) := by
  obtain ⟨hlive, hmoved⟩ := h.insertBatch content
  obtain ⟨movement, hdiff, -⟩ := h.diff hlive hmoved
  unfold insert
  by_cases hhead : (chain.insertBatch es store).2.1.head ≠ (ChangeDiffer.openedAt chain.head).source
  · simp only [if_pos hhead, hdiff]
    exact ⟨hlive, .inr ⟨movement, rfl, rfl⟩⟩
  · simp only [if_neg hhead]
    exact ⟨hlive, .inl ⟨trivial, not_not.1 hhead⟩⟩

/-- What every state of a run satisfies. -/
structure Invariant (W : World) (σ : System) : Prop where
  live : ∃ base, Live W base σ.chain σ.store
  formed : ∀ p next merged, σ.mainloop = .publishing p next merged → p.movement.changes.Formed
  kept : ∀ id sub, σ.subscriptions[id]? = some (some sub) → Kept σ id sub

variable {σ : System}

omit [Externals] in
theorem subscriptions_update {id j : Nat} {f : Subscription → Option Subscription} {sub' : Subscription}
    (h : (σ.update id f).subscriptions[j]? = some (some sub')) :
    ∃ sub, σ.subscriptions[j]? = some (some sub) ∧ (j = id ∧ f sub = some sub' ∨ j ≠ id ∧ sub = sub') := by
  unfold System.update at h
  simp only [List.getElem?_modify] at h
  cases hj : σ.subscriptions[j]? with
  | none => rw [hj] at h; simp at h
  | some o =>
    rw [hj] at h
    by_cases hid : id = j
    · subst hid
      cases o with
      | none => simp at h
      | some sub => exact ⟨sub, rfl, .inl ⟨rfl, by simpa using h⟩⟩
    · refine ⟨sub', ?_, .inr ⟨Ne.symm hid, rfl⟩⟩
      simpa [hid] using h

/-- A step of one reader keeps what every subscription keeps. -/
theorem Invariant.update (h : Invariant W σ) {id : Nat} {f : Subscription → Option Subscription}
    (hf : ∀ sub sub', σ.subscriptions[id]? = some (some sub) → f sub = some sub' → Kept (σ.update id f) id sub') :
    Invariant W (σ.update id f) := by
  refine ⟨h.live, h.formed, fun j sub' hsub' => ?_⟩
  obtain ⟨sub, hsub, ⟨rfl, hf'⟩ | ⟨-, rfl⟩⟩ := subscriptions_update hsub'
  · exact hf sub sub' hsub hf'
  · exact (h.kept j sub hsub).unchanged rfl rfl rfl fun _ hp => hp

theorem Invariant.insert (h : Invariant W σ) (idle : σ.mainloop = .idle) {es : List Envelope}
    (content : ∀ e ∈ es, e.toSignedPortion ∈ W.contents) : Invariant W (σ.insert es) := by
  obtain ⟨base, hl⟩ := h.live
  obtain ⟨hlive, hres⟩ := insert_publishes hl content
  unfold System.insert
  rcases hres with ⟨hnone, hhead⟩ | ⟨movement, hsome, hdiff⟩
  · simp only [hnone]
    refine ⟨⟨base, hlive⟩, h.formed, fun id sub hsub => ?_⟩
    exact (h.kept id sub hsub).unchanged rfl hhead rfl fun _ hp => hp
  · simp only [hsome]
    refine ⟨⟨base, hlive⟩, fun p next merged hloop => ?_, fun id sub hsub => ?_⟩
    · cases hloop
      exact ChangeDiffer.diff_formed hdiff
    have hk := h.kept id sub hsub
    have howed : σ.owed id sub.shared.filter = [] := by simp [System.owed, idle]
    obtain ⟨merged, hmerged, haccounted⟩ := hk.accounted
    rw [howed, List.append_nil] at hmerged
    refine ⟨?_, ?_, ⟨merged, ?_, haccounted⟩, fun hp hr => ?_⟩
    · rw [List.length_append]
      exact Nat.le_add_right_of_le hk.opened
    · simp only [List.drop_append_of_le_length hk.opened]
      exact hk.spans.snoc rfl
    · simp only [List.drop_append_of_le_length hk.opened, List.filter_append, ← hmerged]
      simp [System.owed]
    · rcases hk.woken hp hr with hwake | ⟨p, hmid⟩
      · exact .inl hwake
      · rw [idle] at hmid; cases hmid

theorem Invariant.register (h : Invariant W σ) (idle : σ.mainloop = .idle) (filter : ChangeFilter) :
    Invariant W (σ.register filter) := by
  refine ⟨h.live, h.formed, fun id sub hsub => ?_⟩
  unfold System.register at hsub
  rcases Nat.lt_or_ge id σ.subscriptions.length with hlt | hge
  · simp only [List.getElem?_append_left hlt] at hsub
    exact (h.kept id sub hsub).unchanged rfl rfl rfl fun _ hp => hp
  · simp only [List.getElem?_append_right hge] at hsub
    have hsub' : some (⟨.registered filter, σ.chain.head, .idle, σ.moves.length, []⟩ : Subscription) = some sub :=
      List.mem_singleton.1 (List.mem_of_getElem? hsub) ▸ rfl
    obtain rfl := Option.some.inj hsub'
    have hdrop : (σ.register filter).moves.drop σ.moves.length = [] := List.drop_length
    refine ⟨Nat.le_refl _, ?_, ⟨[], ?_, ⟨[], rfl, .nil⟩⟩, nofun⟩
    · rw [hdrop]; exact .nil
    · rw [hdrop]
      simp [System.owed, System.register, idle]

omit [Externals] in
/-- The publisher goes on past the subscription at `next`. -/
theorem Kept.passed {σ σ' : System} {id : Nat} {sub : Subscription} (h : Kept σ id sub) {p : Published} {next : Nat} {merged : Bool}
    (hloop : σ.mainloop = .publishing p next merged) (hloop' : σ'.mainloop = .publishing p (next + 1) false)
    (moves : σ'.moves = σ.moves) (chain : σ'.chain = σ.chain) (hne : id = next → merged = false ∧
      sub.shared.filter.matches p.movement = false) : Kept σ' id sub := by
  refine h.unchanged moves (by rw [chain]) ?_ fun q hq => ?_
  · by_cases hid : id = next
    · obtain ⟨rfl, hskip⟩ := hne hid
      simp [System.owed, hloop, hloop', hid, hskip]
    · have hlt : id < next + 1 ↔ id < next := by omega
      simp [System.owed, hloop, hloop', hid, hlt]
  · rw [hloop] at hq
    cases hq
    cases (hne rfl).1

theorem Invariant.publish (h : Invariant W σ) : Invariant W σ.publish := by
  have hformed : ∀ {p next merged next' merged'}, σ.mainloop = .publishing p next merged →
      ∀ q at' half, Mainloop.publishing p next' merged' = .publishing q at' half → q.movement.changes.Formed := by
    intro p next merged next' merged' hloop q at' half hq
    cases hq
    exact h.formed _ _ _ hloop
  unfold System.publish
  split
  case h_1 p next hloop =>
    split
    case h_1 sub hsub =>
      split
      case isTrue hsel =>
        -- the movement is merged into the subscription at `next`
        refine ⟨h.live, hformed hloop, fun id sub' hsub' => ?_⟩
        obtain ⟨sub₀, hsub₀, ⟨rfl, hf⟩ | ⟨hne, rfl⟩⟩ := subscriptions_update hsub'
        · obtain rfl : sub = sub₀ := Option.some.inj (Option.some.inj (hsub.symm.trans hsub₀))
          obtain rfl := Option.some.inj hf
          exact (h.kept id sub hsub).merge hloop rfl rfl rfl hsel (h.formed _ _ _ hloop)
        · refine (h.kept id sub₀ hsub₀).unchanged rfl rfl ?_ fun q hq => ?_
          · simp [System.owed, hloop, hne]
          · rw [hloop] at hq; cases hq
      case isFalse hsel =>
        refine ⟨h.live, hformed hloop, fun id sub' hsub' => (h.kept id sub' hsub').passed hloop rfl rfl rfl ?_⟩
        rintro rfl
        obtain rfl : sub = sub' := Option.some.inj (Option.some.inj (hsub.symm.trans hsub'))
        exact ⟨rfl, Bool.eq_false_iff.2 hsel⟩
    case h_2 hsub =>
      refine ⟨h.live, hformed hloop, fun id sub' hsub' => (h.kept id sub' hsub').passed hloop rfl rfl rfl ?_⟩
      rintro rfl
      cases hsub.symm.trans hsub'
    case h_3 hsub =>
      -- every subscription was passed
      refine ⟨h.live, nofun, fun id sub' hsub' => (h.kept id sub' hsub').unchanged rfl rfl ?_ fun q hq => ?_⟩
      · have hlt : id < next := by
          have hid : id < σ.subscriptions.length := (List.getElem?_eq_some_iff.1 hsub').1
          exact Nat.lt_of_lt_of_le hid (List.getElem?_eq_none_iff.1 hsub)
        simp [System.owed, hloop, hlt]
      · rw [hloop] at hq; cases hq
  case h_2 p next hloop =>
    -- the wake is in the channel
    refine ⟨h.live, hformed hloop, fun id sub' hsub' => ?_⟩
    obtain ⟨sub, hsub, ⟨rfl, hf⟩ | ⟨hne, rfl⟩⟩ := subscriptions_update hsub'
    · obtain rfl := Option.some.inj hf
      refine (h.kept id sub hsub).beside ⟨rfl, rfl, ?_, ⟨rfl, rfl, rfl⟩, rfl⟩ fun _ _ => .inl rfl
      simp [System.owed, hloop]
    · exact (h.kept id sub hsub).passed hloop rfl rfl rfl fun hid => absurd hid hne
  case h_3 => exact h

theorem Invariant.step {σ' : System} (h : Invariant W σ) (hstep : System.Step W.contents σ σ') : Invariant W σ' := by
  cases hstep with
  | insert idle content => exact h.insert idle content
  | @chain chain store idle step =>
    obtain ⟨base, hl⟩ := h.live
    obtain ⟨hlive, hhead⟩ : (∃ base, Live W base chain store) ∧ chain.head = σ.chain.head := by
      rcases step with ⟨cut, hcut⟩ | ⟨clock, hclock⟩
      · obtain ⟨rfl, rfl⟩ := Prod.ext_iff.1 hcut
        obtain ⟨base', hl', -⟩ := hl.compact cut
        refine ⟨⟨base', hl'⟩, ?_⟩
        unfold Chain.compact Chain.compacted
        split
        · rfl
        · rfl
      · obtain ⟨rfl, rfl⟩ := Prod.ext_iff.1 hclock
        obtain ⟨base', hl', -⟩ := hl.step (.tick clock)
        exact ⟨⟨base', hl'⟩, rfl⟩
    exact ⟨hlive, h.formed, fun id sub hsub => (h.kept id sub hsub).unchanged rfl hhead rfl fun _ hp => hp⟩
  | register filter idle => exact h.register idle filter
  | publish => exact h.publish
  | gone idle =>
    refine ⟨h.live, nofun, fun id sub hsub => (h.kept id sub hsub).unchanged rfl rfl ?_ fun q hq => ?_⟩
    · simp [System.owed, idle]
    · rw [idle] at hq; cases hq
  | drop id unlocked => exact h.update fun sub sub' _ hf => by cases hf
  | call id =>
    refine h.update fun sub sub' hsub hf => ?_
    split at hf
    · obtain rfl := Option.some.inj hf
      exact (h.kept id sub hsub).call ⟨rfl, rfl, rfl⟩
    · obtain rfl := Option.some.inj hf
      exact (h.kept id sub hsub).unchanged rfl rfl rfl fun _ hp => hp
  | take id =>
    refine h.update fun sub sub' hsub hf => ?_
    split at hf
    · obtain rfl := Option.some.inj hf
      exact (h.kept id sub hsub).take ⟨rfl, rfl, rfl⟩
    · obtain rfl := Option.some.inj hf
      exact (h.kept id sub hsub).unchanged rfl rfl rfl fun _ hp => hp
  | poll id =>
    refine h.update fun sub sub' hsub hf => ?_
    split at hf
    case isTrue hr =>
      obtain rfl := Option.some.inj hf
      exact (h.kept id sub hsub).poll _ hr ⟨rfl, rfl, rfl⟩
    case isFalse =>
      obtain rfl := Option.some.inj hf
      exact (h.kept id sub hsub).unchanged rfl rfl rfl fun _ hp => hp
  | cancel id =>
    refine h.update fun sub sub' hsub hf => ?_
    obtain rfl := Option.some.inj hf
    exact (h.kept id sub hsub).cancel ⟨rfl, rfl, rfl⟩

theorem System.Runs.invariant {contents : Set SignedPortion} (laws : DigestLaws contents) (h : Runs contents σ) :
    ∃ W : World, W.contents = contents ∧ Invariant W σ := by
  induction h with
  | start reachable =>
    obtain ⟨W, rfl, hl⟩ := reachable.live laws
    exact ⟨W, rfl, ⟨_, hl⟩, nofun, fun id sub hsub => by simp at hsub⟩
  | step before step ih =>
    obtain ⟨W, rfl, hi⟩ := ih
    exact ⟨W, rfl, hi.step step⟩

/-- What a subscription has been told. -/
structure Told (σ : System) (id : Nat) (sub : Subscription) : Prop where
  /-- The movements published since it opened lead from there to the head. -/
  spans : Spans sub.openedAt (σ.moves.drop sub.opened) σ.chain.head
  /-- Each that the filter selects is in exactly one notification, taken or still pending, but for
  the one a publish under way has yet to merge. -/
  accounted : ∃ merged, merged ++ σ.owed id sub.shared.filter =
      (σ.moves.drop sub.opened).filter (fun p => sub.shared.filter.matches p.movement) ∧
    Accounted merged (sub.taken ++ sub.shared.pending.toList)
  /-- Nobody sleeps on something pending, but between the two halves of the push that merged it. -/
  woken : sub.shared.pending.isSome = true → sub.shared.wake = true ∨ sub.reader ≠ .blocked ∨
    ∃ p, σ.mainloop = .publishing p id true
  /-- What was taken carries heads in the order the chain moved. -/
  order : (sub.taken.map (·.head)).Sublist ((σ.moves.drop sub.opened).map (·.head))

/-- Whatever the interleaving, a subscription is told every selected movement once and in order, and
its reader is woken for it. -/
theorem System.Runs.told_once {contents : Set SignedPortion} (laws : DigestLaws contents) (h : Runs contents σ) {id : Nat}
    {sub : Subscription} (hsub : σ.subscriptions[id]? = some (some sub)) : Told σ id sub := by
  obtain ⟨W, -, hi⟩ := h.invariant laws
  have hk := hi.kept id sub hsub
  refine ⟨hk.spans, hk.accounted, fun hp => ?_, ?_⟩
  · by_cases hr : sub.reader = .blocked
    · rcases hk.woken hp (.inr hr) with hwake | hmid
      · exact .inl hwake
      · exact .inr (.inr hmid)
    · exact .inr (.inl hr)
  · obtain ⟨merged, hmerged, groups, hflat, hreports⟩ := hk.accounted
    have hheads := Accounted.heads hreports
    rw [hflat, List.map_append] at hheads
    have hsub₁ : (sub.taken.map (·.head)).Sublist (merged.map (·.head)) := (List.sublist_append_left _ _).trans hheads
    have hsub₂ : merged.Sublist (σ.moves.drop sub.opened) := by
      refine List.Sublist.trans ?_ (List.filter_sublist (p := fun p => sub.shared.filter.matches p.movement))
      rw [← hmerged]
      exact List.sublist_append_left _ _
    exact hsub₁.trans (hsub₂.map _)

end Runs

end IrohLotus.Lotusd

/-! ## A watcher of the samples -/

namespace IrohLotus.Lotusd

open Std Outcome IrohLotus.Wire IrohLotus.Wire.Sample IrohLotus.Storage IrohLotus.State

/-- A head watcher opened at genesis, `first` and then `second` inserted and published to it. -/
def publishedTwo : System :=
  let watching := (System.mk ⟨genesisDigest, ⟨genesisDigest⟩⟩ genesisStore [] .idle []).register (.of .head)
  ((((((((watching.insert [first]).publish).publish).publish).publish).insert [second]).publish).publish)

/-- And its reader, which called `next` and took what was pending. -/
def tookTwo : System :=
  (publishedTwo.update 0 fun sub => if sub.reader = .idle then some sub.call else some sub).update 0
    fun sub => if sub.reader = .checking then some sub.take else some sub

/-- One notification covers both movements. -/
theorem told_once_tookTwo : ∃ sub, tookTwo.subscriptions[0]? = some (some sub) ∧
    sub.taken.map (fun n => (n.source, n.head)) = [(genesisDigest, secondDigest)] ∧ Told tookTwo 0 sub := by
  have hfirst : ∀ e ∈ [first], e.toSignedPortion ∈ table.map Prod.fst := by decide +kernel
  have hsecond : ∀ e ∈ [second], e.toSignedPortion ∈ table.map Prod.fst := by decide +kernel
  have hidle : (((((((System.mk ⟨genesisDigest, ⟨genesisDigest⟩⟩ genesisStore [] .idle []).register (.of .head)).insert
      [first]).publish).publish).publish).publish).mainloop = .idle := by decide +kernel
  have hruns : System.Runs Sample.contents tookTwo :=
    .step (.step (.step (.step (.step (.step (.step (.step (.step (.step (.step (.start reachable_genesisStore)
      (.register _ rfl)) (.insert rfl hfirst)) .publish) .publish) .publish) .publish) (.insert hidle hsecond)) .publish)
      .publish) (.call 0)) (.take 0)
  obtain ⟨sub, hsub, htaken⟩ : ∃ sub, tookTwo.subscriptions[0]? = some (some sub) ∧
      sub.taken.map (fun n => (n.source, n.head)) = [(genesisDigest, secondDigest)] := by
    have hsome : (tookTwo.subscriptions[0]?.bind id).map (fun sub => sub.taken.map fun n => (n.source, n.head)) =
        some [(genesisDigest, secondDigest)] := by
      decide +kernel
    obtain ⟨sub, hsub, htaken⟩ := Option.map_eq_some_iff.1 hsome
    obtain ⟨o, ho, rfl⟩ := Option.bind_eq_some_iff.1 hsub
    exact ⟨sub, ho, htaken⟩
  exact ⟨sub, hsub, htaken, hruns.told_once sample_laws hsub⟩

end IrohLotus.Lotusd
