/-
The peer table of the egress actor (`lotusd::peer_egress`): `reconcile` brings it in line with the
cluster nodes of the ledger, and the reap arm of `run` takes out the tasks that ended. A node that
leaves only has its task cancelled; its entry stays until the task is reaped, and a `reconcile` that
finds it there keeps it.
-/
import IrohLotus.Wire.Addr
import IrohLotus.Wire.Sample

namespace IrohLotus.Lotusd.PeerEgress

open Std IrohLotus.Wire

variable [Externals]

/-! ## The actor -/

/-- A peer in the table: the address its task dials, and which task of the set is its own. -/
structure Peer where
  addr : EndpointAddr
  task : Nat

/-- A task of the set: the node it connects, and whether its token was cancelled. -/
structure Task where
  node : KeyId
  cancelled : Bool
deriving DecidableEq

/-- What the actor keeps: its table, the task set, and how many tasks it has spawned. -/
structure State where
  table : ExtTreeMap KeyId Peer
  tasks : ExtTreeMap Nat Task
  spawned : Nat

/-- The actor's own identity: its node and the endpoint it dials from. -/
structure Egress where
  node : KeyId
  endpoint : Externals.EndpointId

/-- The nodes of a refresh: every one the ledger holds, with its address. -/
abbrev Desired := ExtTreeMap KeyId EndpointAddr

namespace State

def empty : State := ⟨∅, ∅, 0⟩

/-- Cancels a task's token. -/
def cancel (σ : State) (task : Nat) : State :=
  { σ with tasks := σ.tasks.modify task fun t => { t with cancelled := true } }

/-- Cancels what keeps `node` connected; its entry stays for the reap. -/
def cancelNode (σ : State) (node : KeyId) : State :=
  match σ.table[node]? with
  | some peer => σ.cancel peer.task
  | none => σ

/-- Starts the task that keeps `node` connected, and puts it in the table. -/
def spawnPeer (σ : State) (node : KeyId) (addr : EndpointAddr) : State :=
  { table := σ.table.insert node ⟨addr, σ.spawned⟩, tasks := σ.tasks.insert σ.spawned ⟨node, false⟩,
    spawned := σ.spawned + 1 }

variable [DecidableEq Externals.EndpointId]

/-- One desired node: the same machine keeps its task, another one gets its own. -/
def settle (σ : State) : KeyId × EndpointAddr → State
  | (node, addr) =>
    match σ.table[node]? with
    | some peer =>
      if peer.addr.id = addr.id then { σ with table := σ.table.insert node { peer with addr } }
      else (σ.cancel peer.task).spawnPeer node addr
    | none => σ.spawnPeer node addr

end State

variable [DecidableEq Externals.EndpointId]

/-- The nodes to stay connected to: not this one, nor anything at its own endpoint. -/
def Egress.wanted (egress : Egress) (desired : Desired) : Desired :=
  desired.filter fun node addr => decide (node ≠ egress.node) && decide (addr.id ≠ egress.endpoint)

/-- Brings the table in line with `desired`. -/
def Egress.reconcile (egress : Egress) (desired : Desired) (σ : State) : State :=
  let desired := egress.wanted desired
  let gone := σ.table.keys.filter fun node => !desired.contains node
  desired.toList.foldl State.settle (gone.foldl State.cancelNode σ)

omit [DecidableEq Externals.EndpointId] in
/-- A task of the set ended: its entry goes, unless the node has another task by now. -/
def State.reap (σ : State) (id : Nat) : State :=
  match σ.tasks[id]? with
  | some task =>
    { σ with
      tasks := σ.tasks.erase id
      table :=
        match σ.table[task.node]? with
        | some peer => if peer.task = id then σ.table.erase task.node else σ.table
        | none => σ.table }
  | none => σ

/-- The runs of the actor, with the last set it was handed: refreshes that `admits` allows, and
tasks that end, each only once it was cancelled. -/
inductive Runs (egress : Egress) (admits : State → Desired → Prop) : State → Desired → Prop
  | start : Runs egress admits .empty ∅
  | desired {σ : State} {last desired : Desired} (before : Runs egress admits σ last) (admitted : admits σ desired) :
    Runs egress admits (egress.reconcile desired σ) desired
  | ended {σ : State} {last : Desired} {id : Nat} {task : Task} (before : Runs egress admits σ last)
    (held : σ.tasks[id]? = some task) (cancelled : task.cancelled = true) : Runs egress admits (σ.reap id) last

/-- No cancelled task is left to reap. -/
def State.AllReaped (σ : State) : Prop := ∀ (id : Nat) (task : Task), σ.tasks[id]? = some task → task.cancelled = false

/-- The table follows the desired set. -/
structure Follows (egress : Egress) (desired : Desired) (σ : State) : Prop where
  /-- Each wanted node has its entry, at the desired address and with a task at work. -/
  entry : ∀ (node : KeyId) (addr : EndpointAddr), (egress.wanted desired)[node]? = some addr →
    ∃ peer, σ.table[node]? = some peer ∧ peer.addr = addr ∧ σ.tasks[peer.task]? = some ⟨node, false⟩
  /-- No other node has one. -/
  only : ∀ node : KeyId, node ∈ σ.table → node ∈ egress.wanted desired
  /-- And no task is at work but those of the table. -/
  tasks : ∀ (id : Nat) (node : KeyId), σ.tasks[id]? = some ⟨node, false⟩ → ∃ peer, σ.table[node]? = some peer ∧ peer.task = id

/-! ## The table node by node -/

namespace State

omit [DecidableEq Externals.EndpointId]

/-- The table and the task set fit together: every entry's task is in the set, under its node, and
every task at work is its node's entry's. -/
structure Wf (σ : State) : Prop where
  entry : ∀ (node : KeyId) (peer : Peer), σ.table[node]? = some peer →
    ∃ cancelled, σ.tasks[peer.task]? = some ⟨node, cancelled⟩
  live : ∀ (id : Nat) (node : KeyId), σ.tasks[id]? = some ⟨node, false⟩ →
    ∃ peer, σ.table[node]? = some peer ∧ peer.task = id
  fresh : ∀ (id : Nat) (task : Task), σ.tasks[id]? = some task → id < σ.spawned

/-- A node's entry: its address, and whether its task is cancelled. -/
def entryOf (σ : State) (node : KeyId) : Option (EndpointAddr × Bool) :=
  σ.table[node]?.bind fun peer => σ.tasks[peer.task]?.map fun task => (peer.addr, task.cancelled)

variable {σ : State} {node other : KeyId} {addr : EndpointAddr}

theorem entryOf_none (h : σ.table[node]? = none) : σ.entryOf node = none := by
  simp [entryOf, h]

theorem entryOf_some {peer : Peer} {task : Task} (h : σ.table[node]? = some peer) (ht : σ.tasks[peer.task]? = some task) :
    σ.entryOf node = some (peer.addr, task.cancelled) := by
  simp [entryOf, h, ht]

theorem Wf.task_ne (h : σ.Wf) {peer peer' : Peer} (hp : σ.table[node]? = some peer) (hp' : σ.table[other]? = some peer')
    (hne : node ≠ other) : peer.task ≠ peer'.task := by
  intro heq
  obtain ⟨c, hc⟩ := h.entry node peer hp
  obtain ⟨c', hc'⟩ := h.entry other peer' hp'
  rw [heq, hc'] at hc
  exact hne (congrArg Task.node (Option.some.inj hc)).symm

theorem tasks_cancel (id j : Nat) :
    (σ.cancel id).tasks[j]? = if j = id then σ.tasks[j]?.map (fun t => { t with cancelled := true }) else σ.tasks[j]? := by
  unfold cancel
  rw [ExtTreeMap.getElem?_modify]
  by_cases hj : j = id
  · subst hj; simp
  · have : id ≠ j := Ne.symm hj
    simp [hj, this]

/-- No task of `node` is at work. -/
def Quiet (σ : State) (node : KeyId) : Prop := ∀ id : Nat, σ.tasks[id]? ≠ some ⟨node, false⟩

theorem Wf.quiet (h : σ.Wf) (hnone : σ.table[node]? = none) : σ.Quiet node := by
  intro id hid
  obtain ⟨peer, hpeer, -⟩ := h.live id node hid
  rw [hnone] at hpeer
  cases hpeer

theorem Wf.cancel (h : σ.Wf) {peer : Peer} (hp : σ.table[node]? = some peer) :
    (σ.cancel peer.task).Wf ∧ (σ.cancel peer.task).Quiet node := by
  refine ⟨⟨fun n q hq => ?_, fun id n hid => ?_, fun id task hid => ?_⟩, fun id hid => ?_⟩
  · obtain ⟨c, hc⟩ := h.entry n q hq
    rw [tasks_cancel]
    split
    · exact ⟨true, by rw [hc]; rfl⟩
    · exact ⟨c, hc⟩
  · rw [tasks_cancel] at hid
    split at hid
    · obtain ⟨task, -, htask⟩ := Option.map_eq_some_iff.1 hid
      cases congrArg Task.cancelled htask
    · exact h.live id n hid
  · rw [tasks_cancel] at hid
    split at hid
    · obtain ⟨task, htask, -⟩ := Option.map_eq_some_iff.1 hid
      exact h.fresh id task htask
    · exact h.fresh id task hid
  · rw [tasks_cancel] at hid
    split at hid
    · obtain ⟨task, -, htask⟩ := Option.map_eq_some_iff.1 hid
      cases congrArg Task.cancelled htask
    · rename_i hne
      obtain ⟨q, hq, rfl⟩ := h.live id node hid
      rw [hp] at hq
      exact hne (congrArg Peer.task (Option.some.inj hq)).symm

theorem entryOf_cancel (h : σ.Wf) {peer : Peer} (hp : σ.table[node]? = some peer) (other : KeyId) :
    (σ.cancel peer.task).entryOf other =
      if other = node then (σ.entryOf node).map fun e => (e.1, true) else σ.entryOf other := by
  by_cases hne : other = node
  · subst hne
    obtain ⟨c, hc⟩ := h.entry other peer hp
    have hc' : (σ.cancel peer.task).tasks[peer.task]? = some ⟨other, true⟩ := by
      rw [tasks_cancel, if_pos rfl, hc]; rfl
    have hp' : (σ.cancel peer.task).table[other]? = some peer := hp
    rw [if_pos rfl, entryOf_some hp' hc', entryOf_some hp hc]; rfl
  · rw [if_neg hne]
    cases hq : σ.table[other]? with
    | none =>
      have hq' : (σ.cancel peer.task).table[other]? = none := hq
      rw [entryOf_none hq', entryOf_none hq]
    | some q =>
      obtain ⟨c, hc⟩ := h.entry other q hq
      have hc' : (σ.cancel peer.task).tasks[q.task]? = some ⟨other, c⟩ := by
        rw [tasks_cancel, if_neg (h.task_ne hq hp hne)]; exact hc
      have hq' : (σ.cancel peer.task).table[other]? = some q := hq
      rw [entryOf_some hq' hc', entryOf_some hq hc]

theorem Wf.cancelNode (h : σ.Wf) (node : KeyId) : (σ.cancelNode node).Wf := by
  unfold State.cancelNode
  split
  · rename_i peer hp
    exact (h.cancel hp).1
  · exact h

theorem entryOf_cancelNode (h : σ.Wf) (node other : KeyId) :
    (σ.cancelNode node).entryOf other =
      if other = node then (σ.entryOf node).map fun e => (e.1, true) else σ.entryOf other := by
  unfold State.cancelNode
  split
  · rename_i peer hp
    exact entryOf_cancel h hp other
  · rename_i hp
    split
    · rename_i heq
      rw [heq, entryOf_none hp]; rfl
    · rfl

theorem Wf.spawnPeer (h : σ.Wf) (hq : σ.Quiet node) (addr : EndpointAddr) : (σ.spawnPeer node addr).Wf := by
  have hfresh : ∀ task, σ.tasks[σ.spawned]? ≠ some task := fun task ht => Nat.lt_irrefl _ (h.fresh _ task ht)
  unfold State.spawnPeer
  refine ⟨fun n q hn => ?_, fun id n hid => ?_, fun id task hid => ?_⟩
  · simp only [ExtTreeMap.getElem?_insert, Std.compare_eq_iff_eq] at hn ⊢
    split at hn
    · rename_i heq
      subst heq
      obtain rfl := Option.some.inj hn
      exact ⟨false, if_pos rfl⟩
    · obtain ⟨c, hc⟩ := h.entry n q hn
      refine ⟨c, ?_⟩
      rw [if_neg]
      · exact hc
      · intro heq
        exact hfresh _ (heq ▸ hc)
  · simp only [ExtTreeMap.getElem?_insert, Std.compare_eq_iff_eq] at hid ⊢
    split at hid
    · rename_i heq
      obtain rfl : node = n := congrArg Task.node (Option.some.inj hid)
      exact ⟨_, if_pos rfl, heq⟩
    · obtain ⟨q, hq', rfl⟩ := h.live id n hid
      refine ⟨q, ?_, rfl⟩
      rw [if_neg]
      · exact hq'
      · rintro rfl
        exact hq _ hid
  · simp only [ExtTreeMap.getElem?_insert, Std.compare_eq_iff_eq] at hid
    split at hid
    · rename_i heq
      exact heq ▸ Nat.lt_succ_self _
    · exact Nat.lt_succ_of_lt (h.fresh id task hid)

theorem entryOf_spawnPeer (h : σ.Wf) (node other : KeyId) (addr : EndpointAddr) :
    (σ.spawnPeer node addr).entryOf other = if other = node then some (addr, false) else σ.entryOf other := by
  have hfresh : ∀ task, σ.tasks[σ.spawned]? ≠ some task := fun task ht => Nat.lt_irrefl _ (h.fresh _ task ht)
  by_cases hne : other = node
  · subst hne
    simp [entryOf, State.spawnPeer]
  · rw [if_neg hne]
    have htable : (σ.spawnPeer node addr).table[other]? = σ.table[other]? := by
      simp only [State.spawnPeer, ExtTreeMap.getElem?_insert, Std.compare_eq_iff_eq, if_neg (Ne.symm hne)]
    cases hq : σ.table[other]? with
    | none => rw [entryOf_none (htable.trans hq), entryOf_none hq]
    | some q =>
      obtain ⟨c, hc⟩ := h.entry other q hq
      have hc' : (σ.spawnPeer node addr).tasks[q.task]? = some ⟨other, c⟩ := by
        simp only [State.spawnPeer, ExtTreeMap.getElem?_insert, Std.compare_eq_iff_eq]
        rw [if_neg]
        · exact hc
        · intro heq
          exact hfresh _ (heq ▸ hc)
      rw [entryOf_some (htable.trans hq) hc', entryOf_some hq hc]

/-- Reaping a cancelled task takes its entry out, if it still is its node's. -/
theorem Wf.reap (h : σ.Wf) {id : Nat} {task : Task} (hid : σ.tasks[id]? = some task) (hc : task.cancelled = true) :
    (σ.reap id).Wf ∧ ∀ other, (σ.reap id).entryOf other = σ.entryOf other ∨
      (σ.reap id).entryOf other = none ∧ ∃ addr, σ.entryOf other = some (addr, true) := by
  have htasks : ∀ j : Nat, (σ.reap id).tasks[j]? = if id = j then none else σ.tasks[j]? := fun j => by
    simp only [State.reap, hid, ExtTreeMap.getElem?_erase, Std.compare_eq_iff_eq]
  -- an entry is gone where its task is the one reaped, and stands where it is not
  have hgone : ∀ (n : KeyId) (q : Peer), σ.table[n]? = some q → q.task = id → (σ.reap id).table[n]? = none := by
    intro n q hq hqid
    obtain ⟨c, hqc⟩ := h.entry n q hq
    rw [hqid, hid] at hqc
    obtain rfl := Option.some.inj hqc
    simp [State.reap, hid, hq, hqid]
  have hstands : ∀ (n : KeyId) (q : Peer), σ.table[n]? = some q → q.task ≠ id → (σ.reap id).table[n]? = some q := by
    intro n q hq hqid
    simp only [State.reap, hid]
    split
    · rename_i peer hpeer
      split
      · rename_i hpid
        have hne : task.node ≠ n := by
          rintro rfl
          rw [hq] at hpeer
          exact hqid (Option.some.inj hpeer ▸ hpid)
        simp only [ExtTreeMap.getElem?_erase, Std.compare_eq_iff_eq, if_neg hne]
        exact hq
      · exact hq
    · exact hq
  have hnone : ∀ n : KeyId, σ.table[n]? = none → (σ.reap id).table[n]? = none := by
    intro n hn
    simp only [State.reap, hid]
    split
    · split
      · rw [ExtTreeMap.getElem?_erase]
        split
        · rfl
        · exact hn
      · exact hn
    · exact hn
  refine ⟨⟨fun n q hq => ?_, fun j n hj => ?_, fun j t hj => ?_⟩, fun other => ?_⟩
  · cases hq' : σ.table[n]? with
    | none => rw [hnone n hq'] at hq; cases hq
    | some q' =>
      by_cases hqid : q'.task = id
      · rw [hgone n q' hq' hqid] at hq; cases hq
      · rw [hstands n q' hq' hqid] at hq
        obtain rfl := Option.some.inj hq
        obtain ⟨c, hqc⟩ := h.entry n q' hq'
        exact ⟨c, by rw [htasks, if_neg (Ne.symm hqid)]; exact hqc⟩
  · rw [htasks] at hj
    split at hj
    · cases hj
    · rename_i hne
      obtain ⟨q, hq, rfl⟩ := h.live j n hj
      exact ⟨q, hstands n q hq (Ne.symm hne), rfl⟩
  · rw [htasks] at hj
    split at hj
    · cases hj
    · show j < (σ.reap id).spawned
      have hspawned : (σ.reap id).spawned = σ.spawned := by simp only [State.reap, hid]
      rw [hspawned]
      exact h.fresh j t hj
  · cases hq : σ.table[other]? with
    | none => exact .inl (by rw [entryOf_none (hnone other hq), entryOf_none hq])
    | some q =>
      obtain ⟨c, hqc⟩ := h.entry other q hq
      by_cases hqid : q.task = id
      · refine .inr ⟨entryOf_none (hgone other q hq hqid), q.addr, ?_⟩
        rw [hqid, hid] at hqc
        obtain rfl := Option.some.inj hqc
        rw [entryOf_some hq (by rw [hqid]; exact hid)]
        exact congrArg (fun c => some (q.addr, c)) hc
      · refine .inl ?_
        rw [entryOf_some (hstands other q hq hqid) (by rw [htasks, if_neg (Ne.symm hqid)]; exact hqc), entryOf_some hq hqc]

end State

/-! ## One refresh -/

section Reconcile

variable {σ : State}

/-- What a desired node's entry becomes. -/
def settled (entry : Option (EndpointAddr × Bool)) (addr : EndpointAddr) : EndpointAddr × Bool :=
  match entry with
  | some (current, cancelled) => if current.id = addr.id then (addr, cancelled) else (addr, false)
  | none => (addr, false)

theorem State.Wf.settle (h : σ.Wf) (node : KeyId) (addr : EndpointAddr) :
    (σ.settle (node, addr)).Wf ∧ ∀ other, (σ.settle (node, addr)).entryOf other =
      if other = node then some (settled (σ.entryOf node) addr) else σ.entryOf other := by
  cases hp : σ.table[node]? with
  | none =>
    have hstep : σ.settle (node, addr) = σ.spawnPeer node addr := by simp only [State.settle, hp]
    rw [hstep]
    refine ⟨h.spawnPeer (h.quiet hp) addr, fun other => ?_⟩
    simp only [State.entryOf_spawnPeer h, State.entryOf_none hp, settled]
  | some peer =>
    obtain ⟨c, hc⟩ := h.entry node peer hp
    have hentry := State.entryOf_some hp hc
    by_cases hid : peer.addr.id = addr.id
    · have hstep : σ.settle (node, addr) = { σ with table := σ.table.insert node { peer with addr } } := by
        simp only [State.settle, hp, if_pos hid]
      rw [hstep]
      have htable : ∀ other, (σ.table.insert node { peer with addr })[other]? =
          if node = other then some { peer with addr } else σ.table[other]? := fun other => by
        simp only [ExtTreeMap.getElem?_insert, Std.compare_eq_iff_eq]
      refine ⟨⟨fun n q hq => ?_, fun id n hn => ?_, h.fresh⟩, fun other => ?_⟩
      · simp only [htable] at hq
        split at hq
        · rename_i heq
          subst heq
          obtain rfl := Option.some.inj hq
          exact ⟨c, hc⟩
        · exact h.entry n q hq
      · simp only [htable]
        obtain ⟨q, hq, rfl⟩ := h.live id n hn
        split
        · rename_i heq
          subst heq
          rw [hp] at hq
          obtain rfl := Option.some.inj hq
          exact ⟨_, rfl, rfl⟩
        · exact ⟨q, hq, rfl⟩
      · by_cases hne : other = node
        · subst hne
          rw [if_pos rfl, hentry, settled, if_pos hid]
          simp [State.entryOf, hc]
        · rw [if_neg hne]
          unfold State.entryOf
          rw [htable, if_neg (Ne.symm hne)]
    · have hstep : σ.settle (node, addr) = (σ.cancel peer.task).spawnPeer node addr := by
        simp only [State.settle, hp, if_neg hid]
      rw [hstep]
      obtain ⟨hw, hquiet⟩ := h.cancel hp
      refine ⟨hw.spawnPeer hquiet addr, fun other => ?_⟩
      rw [State.entryOf_spawnPeer hw]
      split
      · rw [hentry, settled, if_neg hid]
      · rename_i hne
        rw [State.entryOf_cancel h hp, if_neg hne]

/-- The second loop of `reconcile`, over nodes that are all different. -/
theorem State.Wf.settle_all : ∀ {l : List (KeyId × EndpointAddr)} {σ : State}, σ.Wf → l.Pairwise (fun a b => a.1 ≠ b.1) →
    (l.foldl State.settle σ).Wf ∧
      (∀ node addr, (node, addr) ∈ l → (l.foldl State.settle σ).entryOf node = some (settled (σ.entryOf node) addr)) ∧
      ∀ node, (∀ addr, (node, addr) ∉ l) → (l.foldl State.settle σ).entryOf node = σ.entryOf node
  | [], σ, h, _ => ⟨h, nofun, fun _ _ => rfl⟩
  | (n, a) :: l, σ, h, hl => by
    obtain ⟨hw, hentry⟩ := h.settle n a
    obtain ⟨hhead, htail⟩ := List.pairwise_cons.1 hl
    obtain ⟨hwl, hin, hout⟩ := State.Wf.settle_all hw htail
    refine ⟨hwl, fun node addr hmem => ?_, fun node hno => ?_⟩
    · rcases List.mem_cons.1 hmem with heq | hmem
      · cases heq
        rw [List.foldl_cons, hout n fun addr hm => hhead _ hm rfl, hentry, if_pos rfl]
      · have hne : node ≠ n := fun heq => hhead _ hmem heq.symm
        rw [List.foldl_cons, hin node addr hmem, hentry, if_neg hne]
    · have hne : node ≠ n := fun heq => hno a (heq ▸ List.mem_cons_self)
      rw [List.foldl_cons, hout node fun addr hm => hno addr (List.mem_cons_of_mem _ hm), hentry, if_neg hne]

omit [DecidableEq Externals.EndpointId] in
/-- The first loop of `reconcile`. -/
theorem State.Wf.cancel_all : ∀ {l : List KeyId} {σ : State}, σ.Wf → (l.foldl State.cancelNode σ).Wf ∧
    (∀ node ∈ l, (l.foldl State.cancelNode σ).entryOf node = (σ.entryOf node).map fun e => (e.1, true)) ∧
      ∀ node, node ∉ l → (l.foldl State.cancelNode σ).entryOf node = σ.entryOf node
  | [], σ, h => ⟨h, nofun, fun _ _ => rfl⟩
  | n :: l, σ, h => by
    obtain ⟨hwl, hin, hout⟩ := State.Wf.cancel_all (l := l) (h.cancelNode n)
    have hentry := State.entryOf_cancelNode h n
    refine ⟨hwl, fun node hmem => ?_, fun node hno => ?_⟩
    · rw [List.foldl_cons]
      by_cases hl : node ∈ l
      · rw [hin node hl, hentry]
        split
        · rename_i heq
          subst heq
          cases σ.entryOf node <;> rfl
        · rfl
      · obtain rfl : node = n := (List.mem_cons.1 hmem).resolve_right hl
        rw [hout node hl, hentry, if_pos rfl]
    · obtain ⟨hne, hl⟩ := not_or.1 (mt List.mem_cons.2 hno)
      rw [List.foldl_cons, hout node hl, hentry, if_neg hne]

/-- What `reconcile` makes of every node's entry. -/
theorem State.Wf.reconcile (h : σ.Wf) (egress : Egress) (desired : Desired) :
    (egress.reconcile desired σ).Wf ∧ ∀ node : KeyId, (egress.reconcile desired σ).entryOf node =
      match (egress.wanted desired)[node]? with
      | some addr => some (settled (σ.entryOf node) addr)
      | none => (σ.entryOf node).map fun e => (e.1, true) := by
  obtain ⟨gone, hgone⟩ : ∃ gone, gone = σ.table.keys.filter fun node => !(egress.wanted desired).contains node := ⟨_, rfl⟩
  have hrec : egress.reconcile desired σ = (egress.wanted desired).toList.foldl State.settle (gone.foldl State.cancelNode σ) := by
    rw [hgone]; rfl
  have hmem : ∀ node, node ∈ gone ↔ node ∈ σ.table ∧ node ∉ egress.wanted desired := fun node => by
    have hw : node ∈ egress.wanted desired ↔ (egress.wanted desired).contains node = true := ExtTreeMap.mem_iff_contains
    rw [hgone, List.mem_filter, ExtTreeMap.mem_keys, hw, Bool.not_eq_true, Bool.not_eq_true']
  rw [hrec]
  obtain ⟨hw, hin, hout⟩ := State.Wf.cancel_all (l := gone) h
  have hdistinct : (egress.wanted desired).toList.Pairwise fun a b => a.1 ≠ b.1 :=
    ExtTreeMap.distinct_keys_toList.imp fun hab heq => hab (Std.compare_eq_iff_eq.2 heq)
  obtain ⟨hw', hin', hout'⟩ := hw.settle_all hdistinct
  refine ⟨hw', fun node => ?_⟩
  cases hn : (egress.wanted desired)[node]? with
  | some addr =>
    have hnot : node ∉ gone := fun hg => ((hmem node).1 hg).2 (ExtTreeMap.mem_iff_isSome_getElem?.2 (by rw [hn]; rfl))
    rw [hin' node addr (ExtTreeMap.mem_toList_iff_getElem?_eq_some.2 hn), hout node hnot]
  | none =>
    rw [hout' node fun addr hm => by rw [ExtTreeMap.mem_toList_iff_getElem?_eq_some, hn] at hm; cases hm]
    by_cases hg : node ∈ gone
    · exact hin node hg
    · have htable : σ.table[node]? = none := by
        refine ExtTreeMap.getElem?_eq_none fun ht => hg ((hmem node).2 ⟨ht, fun hw => ?_⟩)
        rw [ExtTreeMap.mem_iff_isSome_getElem?, hn] at hw
        cases hw
      rw [hout node hg, State.entryOf_none htable]; rfl

end Reconcile

/-! ## Runs -/

/-- No wanted node, at the same endpoint, has an entry whose task is cancelled but not yet reaped. -/
def Unshadowed (egress : Egress) (σ : State) (desired : Desired) : Prop :=
  ∀ (node : KeyId) (addr : EndpointAddr) (peer : Peer) (task : Task), (egress.wanted desired)[node]? = some addr →
    σ.table[node]? = some peer → peer.addr.id = addr.id → σ.tasks[peer.task]? = some task → task.cancelled = false

/-- What every state of a run satisfies: wanted nodes have an entry at work, and others at most one
whose task is to be reaped. -/
structure Invariant (egress : Egress) (desired : Desired) (σ : State) : Prop where
  wf : σ.Wf
  wanted : ∀ (node : KeyId) (addr : EndpointAddr), (egress.wanted desired)[node]? = some addr →
    σ.entryOf node = some (addr, false)
  unwanted : ∀ node : KeyId, (egress.wanted desired)[node]? = none → ∀ e, σ.entryOf node = some e → e.2 = true

theorem Runs.invariant {egress : Egress} {σ : State} {desired : Desired} (h : Runs egress (Unshadowed egress) σ desired) :
    Invariant egress desired σ := by
  induction h with
  | start =>
    have hwanted : ∀ node : KeyId, (egress.wanted ∅)[node]? = none := fun node => by simp [Egress.wanted]
    refine ⟨⟨fun _ _ hp => ?_, fun _ _ hp => ?_, fun _ _ hp => ?_⟩, fun node addr hn => ?_, fun node _ e he => ?_⟩
    · simp [State.empty] at hp
    · simp [State.empty] at hp
    · simp [State.empty] at hp
    · rw [hwanted] at hn; cases hn
    · simp [State.entryOf, State.empty] at he
  | @desired σ last desired before admitted ih =>
    obtain ⟨hw, hentry⟩ := ih.wf.reconcile egress desired
    refine ⟨hw, fun node addr hn => ?_, fun node hn e he => ?_⟩
    · rw [hentry, hn]
      refine congrArg some ?_
      cases hp : σ.table[node]? with
      | none => rw [State.entryOf_none hp]; rfl
      | some peer =>
        obtain ⟨c, hc⟩ := ih.wf.entry node peer hp
        rw [State.entryOf_some hp hc, settled]
        split
        · rename_i hid
          exact congrArg (Prod.mk addr) (admitted node addr peer _ hn hp hid hc)
        · rfl
    · rw [hentry, hn] at he
      obtain ⟨e', -, rfl⟩ := Option.map_eq_some_iff.1 he
      rfl
  | @ended σ last id task before held cancelled ih =>
    obtain ⟨hw, hentry⟩ := ih.wf.reap held cancelled
    refine ⟨hw, fun node addr hn => ?_, fun node hn e he => ?_⟩
    · rcases hentry node with hsame | ⟨-, addr', hcancelled⟩
      · rw [hsame]; exact ih.wanted node addr hn
      · rw [ih.wanted node addr hn] at hcancelled
        cases hcancelled
    · rcases hentry node with hsame | ⟨hnone, -⟩
      · exact ih.unwanted node hn e (hsame ▸ he)
      · rw [hnone] at he; cases he

/-- In a run where no refresh names a node again before its cancelled task was reaped, the table
follows the desired set whenever every cancelled task has been. -/
theorem Runs.follows {egress : Egress} {σ : State} {desired : Desired} (h : Runs egress (Unshadowed egress) σ desired)
    (reaped : σ.AllReaped) : Follows egress desired σ := by
  have hi := h.invariant
  refine ⟨fun node addr hn => ?_, fun node hmem => ?_, hi.wf.live⟩
  · have hentry := hi.wanted node addr hn
    cases hp : σ.table[node]? with
    | none => rw [State.entryOf_none hp] at hentry; cases hentry
    | some peer =>
      obtain ⟨c, hc⟩ := hi.wf.entry node peer hp
      rw [State.entryOf_some hp hc] at hentry
      cases hentry
      exact ⟨peer, rfl, rfl, hc⟩
  · by_contra hno
    obtain ⟨peer, hp⟩ := Option.isSome_iff_exists.1 (ExtTreeMap.mem_iff_isSome_getElem?.1 hmem)
    obtain ⟨c, hc⟩ := hi.wf.entry node peer hp
    have hcancelled := hi.unwanted node (ExtTreeMap.getElem?_eq_none hno) _ (State.entryOf_some hp hc)
    rw [reaped _ _ hc] at hcancelled
    cases hcancelled

end IrohLotus.Lotusd.PeerEgress

/-! ## A node that leaves and comes back -/

namespace IrohLotus.Lotusd.PeerEgress

open Std IrohLotus.Wire

/-- Endpoints known by number. -/
abbrev numbered : Externals := { Sample.externals with EndpointId := Nat, endpointIdFromZ32 := fun _ => none }

section Numbered

attribute [local instance] numbered

local instance : DecidableEq Externals.EndpointId := inferInstanceAs (DecidableEq Nat)

def home : Egress := ⟨⟨0⟩, (0 : Nat)⟩

/-- One other node, at endpoint 1. -/
def oneNode : Desired := (∅ : Desired).insert ⟨1⟩ ⟨(1 : Nat), []⟩

/-- The node was added and removed, and its task cancelled. -/
def left : State := home.reconcile ∅ (home.reconcile oneNode .empty)

theorem allReaped_of_tasks {σ : State} {tasks : List (Nat × Task)} (h : σ.tasks.toList = tasks)
    (hall : ∀ e ∈ tasks, e.2.cancelled = false) : σ.AllReaped := by
  intro id task hid
  rw [← ExtTreeMap.mem_toList_iff_getElem?_eq_some, h] at hid
  exact hall _ hid

theorem unshadowed_of_table {σ : State} (h : σ.table.isEmpty = true) (desired : Desired) : Unshadowed home σ desired := by
  intro node addr peer task _ hp
  rw [ExtTreeMap.isEmpty_iff.1 h, ExtTreeMap.getElem?_empty] at hp
  cases hp

/-- A refresh that names the node again after its task was reaped. -/
theorem follows_oneNode : Runs home (Unshadowed home) (home.reconcile oneNode (left.reap 0)) oneNode ∧
    Follows home oneNode (home.reconcile oneNode (left.reap 0)) := by
  have hcancelled : left.tasks[0]? = some ⟨⟨1⟩, true⟩ := by decide +kernel
  have hempty : Unshadowed home (home.reconcile oneNode .empty) ∅ := by
    intro node addr peer task hn
    simp [Egress.wanted] at hn
  have hrun : Runs home (Unshadowed home) (home.reconcile oneNode (left.reap 0)) oneNode :=
    .desired (.ended (.desired (.desired .start (unshadowed_of_table (by decide +kernel) _)) hempty) hcancelled rfl)
      (unshadowed_of_table (by decide +kernel) _)
  have hreaped : (home.reconcile oneNode (left.reap 0)).AllReaped :=
    @allReaped_of_tasks _ [(1, ⟨⟨1⟩, false⟩)] (by decide +kernel) (by decide)
  exact ⟨hrun, hrun.follows hreaped⟩

/-- A refresh that names the node again before keeps the cancelled entry, and the reap then takes it
out. -/
theorem not_follows_oneNode : ∃ σ, Runs home (fun _ _ => True) σ oneNode ∧ σ.AllReaped ∧ ¬ Follows home oneNode σ := by
  have hcancelled : (home.reconcile oneNode left).tasks[0]? = some ⟨⟨1⟩, true⟩ := by decide +kernel
  refine ⟨(home.reconcile oneNode left).reap 0, ?_, ?_, fun h => ?_⟩
  · exact .ended (.desired (.desired (.desired .start trivial) trivial) trivial) hcancelled rfl
  · exact @allReaped_of_tasks _ [] (by decide +kernel) nofun
  · have hwanted : ((home.wanted oneNode)[(⟨1⟩ : KeyId)]?).isSome = true := by decide +kernel
    have hgone : (((home.reconcile oneNode left).reap 0).table[(⟨1⟩ : KeyId)]?).isNone = true := by decide +kernel
    obtain ⟨addr, haddr⟩ := Option.isSome_iff_exists.1 hwanted
    obtain ⟨peer, hp, -⟩ := h.entry ⟨1⟩ addr haddr
    rw [hp] at hgone
    cases hgone

end Numbered

end IrohLotus.Lotusd.PeerEgress
