/-
Nodes left alone come to rest. Every step of a session spends of what its machines have left to do, which the
envelopes there are to stream bound; every announce is heard once; and a head that moves does so over an
envelope the node did not have. So with nothing new from outside the work of a cluster ends, wherever it
starts, and the nodes that hear of each other agree.
-/
import IrohLotus.Lib.Descent
import IrohLotus.Lotusd.Cluster

namespace IrohLotus.Sync

open Std Outcome IrohLotus.Wire

/-! ## What a machine has left to do -/

/-- What it costs a driver to resolve an effect; a frame sent is read at the other end. -/
def Effect.cost {O : Type} : Effect O → Nat
  | .send _ => 3
  | .ask _ | .ingest _ => 1
  | .done _ | .violation _ => 0

/-- What an input is worth to the machine it is fed to. -/
def Input.worth : Input → Nat
  | .message _ => 2
  | .answer _ | .ingested => 1

/-- What the effects of a list cost. -/
def costs {O : Type} (effects : List (Effect O)) : Nat := (effects.map Effect.cost).sum

@[simp] theorem costs_nil {O : Type} : costs ([] : List (Effect O)) = 0 := rfl

@[simp] theorem costs_cons {O : Type} (e : Effect O) (es : List (Effect O)) : costs (e :: es) = e.cost + costs es := rfl

@[simp] theorem costs_append {O : Type} (es fs : List (Effect O)) : costs (es ++ fs) = costs es + costs fs := by
  unfold costs
  rw [List.map_append, List.sum_append]

def Puller.State.left : Puller.State → Nat
  | .awaitHello | .awaitContains => 4
  | .awaitLocator => 3
  | .awaitSplit _ | .awaitBatch _ _ | .awaitIngest _ _ _ | .terminal => 0

/-- Of a server that streams `limit` envelopes at most. -/
def Server.State.left (limit : Nat) : Server.State → Nat
  | .awaitHello => 4 * limit + 9
  | .awaitFindSplit | .awaitSplitPoint => 4 * limit + 7
  | .awaitSegment _ sent => 4 * (limit - sent) + 3
  | .terminal => 0

variable [Externals]

/-- A machine does less than it is fed for. -/
theorem Puller.step_spends {state : Puller.State} {input : Input} {stepped : Puller.State × List (Effect PullOutcome)}
    (took : Puller.step state input = .ok stepped) : stepped.1.left + costs stepped.2 < state.left + input.worth := by
  have hbreach : ∀ {b : Breach}, Puller.breach b = .ok stepped → stepped.1.left + costs stepped.2 = 0 := by
    intro b hb
    obtain rfl := Except.ok.inj hb
    rfl
  have hinput : 0 < input.worth := by cases input <;> exact Nat.succ_pos _
  have hended : ∀ {b : Breach}, Puller.breach b = .ok stepped → stepped.1.left + costs stepped.2 < state.left + input.worth :=
    fun hb => by rw [hbreach hb]; omega
  unfold Puller.step at took
  split at took
  · split at took
    · exact hended took
    · obtain rfl := Except.ok.inj took
      simp [Puller.State.left, Effect.cost, Input.worth]
  · obtain rfl := Except.ok.inj took
    simp [Puller.State.left, Effect.cost, Input.worth]
  · obtain rfl := Except.ok.inj took
    simp [Puller.State.left, Effect.cost, Input.worth]
  · split at took
    · obtain rfl := Except.ok.inj took
      simp [Puller.State.left, Effect.cost, Input.worth]
    · cases took
  · split at took
    · obtain rfl := Except.ok.inj took
      simp [Puller.State.left, Input.worth]
    · exact hended took
  · obtain rfl := Except.ok.inj took
    simp [Puller.State.left, Effect.cost, Input.worth]
  · split at took
    · exact hended took
    · split at took
      · exact hended took
      · split at took
        · obtain rfl := Except.ok.inj took
          simp [Puller.State.left, Effect.cost, Input.worth]
        · exact hended took
  · obtain rfl := Except.ok.inj took
    simp [Puller.State.left, Effect.cost, Input.worth]
  · obtain rfl := Except.ok.inj took
    simp [Puller.State.left, Input.worth]
  · exact hended took
  · exact hended took
  · exact hended took
  all_goals cases took

theorem Server.step_spends {head : EnvelopeDigest} {state : Server.State} {input : Input}
    {stepped : Server.State × List (Effect ServeOutcome)} {limit : Nat} (took : Server.step head state input = .ok stepped)
    (within : ∀ cursor sent, stepped.1 = .awaitSegment cursor sent → sent ≤ limit) :
    stepped.1.left limit + costs stepped.2 < state.left limit + input.worth := by
  have hbreach : ∀ {b : Breach}, Server.breach b = .ok stepped → stepped.1.left limit + costs stepped.2 = 0 := by
    intro b hb
    obtain rfl := Except.ok.inj hb
    rfl
  have hinput : 0 < input.worth := by cases input <;> exact Nat.succ_pos _
  have hended : ∀ {b : Breach}, Server.breach b = .ok stepped →
      stepped.1.left limit + costs stepped.2 < state.left limit + input.worth :=
    fun hb => by rw [hbreach hb]; omega
  unfold Server.step at took
  split at took
  · split at took
    · exact hended took
    · obtain rfl := Except.ok.inj took
      simp [Server.State.left, Effect.cost, Input.worth]
  · split at took
    · exact hended took
    · split at took
      · exact hended took
      · obtain rfl := Except.ok.inj took
        simp [Server.State.left, Effect.cost, Input.worth]
  · obtain rfl := Except.ok.inj took
    simp [Server.State.left, Effect.cost, Input.worth]
  · obtain rfl := Except.ok.inj took
    simp [Server.State.left, Effect.cost, Input.worth]
  · rename_i cursor sent batch
    by_cases hempty : batch.isEmpty
    · rw [if_pos hempty] at took
      obtain rfl := Except.ok.inj took
      simp [Server.State.left, Effect.cost, Input.worth]
    · rw [if_neg hempty] at took
      cases htip : Server.segmentTip cursor batch with
      | error e =>
        rw [htip] at took
        cases took
      | ok tip =>
        rw [htip] at took
        obtain rfl := Except.ok.inj took
        -- at least one envelope more is out of what there is to stream
        have hpos : 0 < batch.length := List.length_pos_iff.2 fun h => hempty (h ▸ rfl)
        have hle := within tip (sent + batch.length) rfl
        simp only [Server.State.left, costs_cons, costs_nil, Effect.cost, Input.worth]
        omega
  · exact hended took
  · exact hended took
  all_goals cases took

end IrohLotus.Sync

namespace IrohLotus.Lotusd

open Std Outcome Forest IrohLotus.Wire IrohLotus.Storage IrohLotus.State IrohLotus.Sync

/-! ## What a session has left to do -/

section Sessions

variable [Externals] [Encoding] {still : Prop} {W : World} {head : EnvelopeDigest} {p q : Pull} {limit : Nat}

/-- What is left of a session that streams `limit` envelopes at most. -/
def Exchange.left (limit : Nat) (x : Exchange) : Nat :=
  x.puller.machine.left + costs x.puller.pending + (x.server.machine.left limit + costs x.server.pending) +
    2 * (x.toServer.length + x.toPuller.length)

theorem Pull.Step.spends (x : Exchange) (step : Pull.Step head p q)
    (within : ∀ cursor sent, q.server.machine = .awaitSegment cursor sent → sent ≤ limit) :
    (x.went q).left limit < (x.went p).left limit := by
  unfold Exchange.left Exchange.went
  dsimp only
  cases step with
  | pullerSends front =>
    rw [front]
    simp only [costs_cons, Effect.cost, List.length_append, List.length_singleton]
    omega
  | pullerAsks front answered took =>
    have hspends := Puller.step_spends took
    rw [front]
    simp only [Session.next, costs_append, costs_cons, Effect.cost, Input.worth] at hspends ⊢
    omega
  | pullerIngests front inserted took =>
    have hspends := Puller.step_spends took
    rw [front]
    simp only [Session.next, costs_append, costs_cons, Effect.cost, Input.worth] at hspends ⊢
    omega
  | pullerReceives idle front took =>
    have hspends := Puller.step_spends took
    rw [idle, front]
    simp only [Session.next, costs_append, costs_nil, Input.worth, List.length_cons] at hspends ⊢
    omega
  | serverSends front =>
    rw [front]
    simp only [costs_cons, Effect.cost, List.length_append, List.length_singleton]
    omega
  | serverAsks front answered took =>
    have hspends := Server.step_spends took within
    rw [front]
    simp only [Session.next, costs_append, costs_cons, Effect.cost, Input.worth] at hspends ⊢
    omega
  | serverReceives idle front took =>
    have hspends := Server.step_spends took within
    rw [idle, front]
    simp only [Session.next, costs_append, costs_nil, Input.worth, List.length_cons] at hspends ⊢
    omega

omit [Encoding] in
/-- A server counts what it streams. -/
theorem Pull.Honest.sent_eq (h : p.Honest still W head) {cursor : EnvelopeDigest} {sent : Nat}
    (streaming : p.server.machine = .awaitSegment cursor sent) : sent = (streamed p.server.effects).flatten.length := by
  have hstreams : ∀ {cursor' : EnvelopeDigest} {count : Nat} {finished : Bool} {state : Server.State}
      {pending : List (Effect ServeOutcome)} {wire ahead : List Message},
      Streams cursor' count finished state pending wire ahead → state = .awaitSegment cursor sent → sent = count := by
    intro cursor' count finished state pending wire ahead hstreams hstate
    cases hstreams with
    | asks => cases hstate; rfl
    | sends => cases hstate; rfl
    | closes => cases hstate
    | closed => cases hstate
  have htalks := h.talks
  obtain ⟨here, there, ⟨machine, pending, fed, effects⟩, ⟨machine', pending', fed', effects'⟩, toServer, toPuller⟩ := p
  unfold Pull.Talks at htalks
  dsimp only at streaming htalks ⊢
  cases htalks with
  | split flow offered reached streams => rw [flow.streamed, hstreams streams streaming]; rfl
  | streaming flow count reached streams => rw [flow.streamed, hstreams streams streaming]
  | ingesting flow last linked reached counts streams => rw [flow.streamed, hstreams streams streaming]
  | _ => cases streaming

/-- What a step stores came from one of the two nodes. -/
theorem Pull.Honest.step_gained (h : p.Honest still W head) (step : Pull.Step head p q) {d : EnvelopeDigest}
    (hd : q.here.storage.Stored d) : p.here.storage.Stored d ∨ p.there.storage.Stored d := by
  rcases step.here_cases with hsame | ⟨batch, pending, insert, front, hins⟩
  · rw [hsame] at hd
    exact .inl hd
  · have htalks := h.talks
    unfold Pull.Talks at htalks
    rw [front] at htalks
    obtain ⟨-, -, -, -, hsent⟩ := htalks.ingest
    have hstored := (h.ingest front).2.2.1
    rw [hins] at hstored
    rcases (hstored d).1 hd with hd | ⟨e, he, hed⟩
    · exact .inl hd
    · obtain ⟨e', ⟨d', hd', -⟩, rfl⟩ := hsent e he
      have hdigest : e'.digest = .ok d' := (h.there.coherent.content d' e' hd').2
      obtain rfl : d' = d := Except.ok.inj (hdigest.symm.trans hed)
      exact .inr ⟨e', hd'⟩

/-- A server does not stream more than its log holds. -/
theorem Pull.Honest.sent_le (h : p.Honest still W head) {logged : Finset EnvelopeDigest}
    (hlogged : ∀ d, p.there.storage.Stored d → d ∈ logged) (cursor : EnvelopeDigest) (sent : Nat)
    (streaming : p.server.machine = .awaitSegment cursor sent) : sent ≤ logged.card := by
  classical
  have hsurvives := h.survives_of_honest
  have hsub : ((streamed p.server.effects).flatten.map Envelope.digest).toFinset ⊆ logged.image Except.ok := by
    intro r hr
    obtain ⟨e, he, rfl⟩ := List.mem_map.1 (List.mem_toFinset.1 hr)
    obtain ⟨d, hd⟩ := hsurvives.logged e he
    rw [(h.there.coherent.content d e hd).2]
    exact Finset.mem_image_of_mem _ (hlogged d ⟨e, hd⟩)
  have hcard := Finset.card_le_card hsub
  rw [List.toFinset_card_of_nodup hsurvives.distinct, List.length_map, ← h.sent_eq streaming] at hcard
  exact hcard.trans Finset.card_image_le

end Sessions

/-! ## What a cluster has left to do -/

namespace Cluster

section Counts

variable {ι : Type} [Fintype ι]

/-- What the connections of a cluster come to together. -/
def total (f : Connection → ℕ) (c : Cluster ι) : ℕ := ∑ p : ι × ι, (c.conns p.1 p.2).elim 0 f

/-- How many nodes have a move of their head to take note of. -/
def untold (c : Cluster ι) : ℕ := ∑ i, ((c.nodes i).heads.pending.elim 0 fun _ => 1)

open Classical in
/-- How many envelopes of `logged` the nodes still lack, each for itself. -/
noncomputable def missing (logged : Finset EnvelopeDigest) (c : Cluster ι) : ℕ :=
  ∑ i, (logged.filter fun d => ¬ (c.nodes i).core.storage.Stored d).card

end Counts

/-- How many pulls there are to run. -/
def owed : PeerLink.Pull → ℕ
  | .idle => 0
  | .running => 1
  | .runningAgain => 2

section Left

variable [Externals]

/-- What the pulls of a connection have left to do, those that stream `limit` envelopes at most: the one that
runs, and the ones that are owed. -/
def left (limit : ℕ) (k : Connection) : ℕ :=
  match k.exchange with
  | none => owed k.link.pull * (4 * limit + 18)
  | some x => (owed k.link.pull - 1) * (4 * limit + 18) + (x.left limit + 1)

variable {ι : Type} [Fintype ι]

/-- What a cluster whose nodes log no more than `logged` has left to do. What comes first may add to what
follows: an envelope that arrives may move the head, a move is told of over every connection, what is told
of is heard, and what is heard may be pulled. -/
noncomputable def rank (logged : Finset EnvelopeDigest) (c : Cluster ι) : ℕ ×ₗ ℕ ×ₗ ℕ ×ₗ ℕ ×ₗ ℕ :=
  toLex (c.missing logged, toLex (c.untold, toLex (c.total fun k => k.changed.toNat,
    toLex (c.total fun k => k.announces.length, c.total (left logged.card)))))

end Left

/-! ## Every step does some of it -/

section Totals

variable {ι : Type} [Fintype ι] [DecidableEq ι] {c : Cluster ι} {e i : ι} {k k' : Connection}

theorem total_link (k' : Connection) (f : Connection → ℕ) (up : c.conns e i = some k) :
    (c.link e i (some k')).total f + f k = c.total f + f k' := by
  unfold total
  rw [← Finset.add_sum_erase Finset.univ _ (Finset.mem_univ (e, i)),
    ← Finset.add_sum_erase Finset.univ (fun p : ι × ι => (c.conns p.1 p.2).elim 0 f) (Finset.mem_univ (e, i))]
  have hrest : ∑ p ∈ Finset.univ.erase (e, i), ((c.link e i (some k')).conns p.1 p.2).elim 0 f =
      ∑ p ∈ Finset.univ.erase (e, i), (c.conns p.1 p.2).elim 0 f := by
    refine Finset.sum_congr rfl fun p hp => ?_
    rw [conns_link, if_neg fun h => Finset.ne_of_mem_erase hp (Prod.ext h.1 h.2)]
  have hthis : (c.link e i (some k')).conns (e, i).1 (e, i).2 = some k' := if_pos ⟨rfl, rfl⟩
  have hthat : c.conns (e, i).1 (e, i).2 = some k := up
  rw [hrest, hthis, hthat]
  simp only [Option.elim_some]
  omega

theorem total_link_eq {f : Connection → ℕ} (up : c.conns e i = some k) (hf : f k' = f k) :
    (c.link e i (some k')).total f = c.total f := by
  have := total_link k' f up
  omega

theorem total_link_lt {f : Connection → ℕ} (up : c.conns e i = some k) (hf : f k' < f k) :
    (c.link e i (some k')).total f < c.total f := by
  have := total_link k' f up
  omega

end Totals

section Descends

variable [Externals] {ι : Type} [Fintype ι] [DecidableEq ι] {W : World} {c c' : Cluster ι} {logged : Finset EnvelopeDigest}

omit [Externals] [Fintype ι] [DecidableEq ι] in
/-- No node logs anything else. -/
def Within (logged : Finset EnvelopeDigest) (c : Cluster ι) : Prop := ∀ i d, (c.nodes i).core.storage.Stored d → d ∈ logged

omit [Externals] [DecidableEq ι] in
theorem missing_congr (hsame : ∀ i d, (c'.nodes i).core.storage.Stored d ↔ (c.nodes i).core.storage.Stored d) :
    c'.missing logged = c.missing logged := by
  classical
  unfold missing
  exact Finset.sum_congr rfl fun i _ => congrArg Finset.card (Finset.filter_congr fun d _ => not_congr (hsame i d))

omit [Externals] in
/-- A log that gains an envelope lacks one less. -/
theorem missing_put {i : ι} {node : Node} {d : EnvelopeDigest} (hgrows : (c.nodes i).core.storage.LogGrows node.core.storage)
    (hnew : node.core.storage.Stored d) (hold : ¬ (c.nodes i).core.storage.Stored d) (hd : d ∈ logged) :
    (c.put i node).missing logged < c.missing logged := by
  classical
  unfold missing
  have hself : (c.put i node).nodes i = node := Function.update_self ..
  refine Finset.sum_lt_sum (fun j _ => ?_) ⟨i, Finset.mem_univ i, ?_⟩
  · by_cases hj : j = i
    · subst hj
      rw [hself]
      exact Finset.card_le_card (Finset.monotone_filter_right _ fun x _ hx hstored => hx (hgrows.stored hstored))
    · have : (c.put i node).nodes j = c.nodes j := Function.update_of_ne hj ..
      rw [this]
  · rw [hself]
    refine Finset.card_lt_card (Finset.ssubset_iff_subset_ne.2 ⟨?_, fun heq => ?_⟩)
    · exact Finset.monotone_filter_right _ fun x _ hx hstored => hx (hgrows.stored hstored)
    · have hmem : d ∈ logged.filter fun d => ¬ (c.nodes i).core.storage.Stored d := Finset.mem_filter.2 ⟨hd, hold⟩
      rw [← heq] at hmem
      exact (Finset.mem_filter.1 hmem).2 hnew

omit [Externals] in
/-- A notification taken is one less to take. -/
theorem untold_put {e : ι} {node : Node} {moved : ChangeNotification} (hpending : (c.nodes e).heads.pending = some moved)
    (htaken : node.heads.pending = none) : (c.put e node).untold < c.untold := by
  unfold untold
  refine Finset.sum_lt_sum (fun j _ => ?_) ⟨e, Finset.mem_univ e, ?_⟩
  · by_cases hj : j = e
    · subst hj
      have : (c.put j node).nodes j = node := Function.update_self ..
      rw [this, htaken, hpending]
      exact Nat.zero_le _
    · have : (c.put e node).nodes j = c.nodes j := Function.update_of_ne hj ..
      rw [this]
  · have : (c.put e node).nodes e = node := Function.update_self ..
    rw [this, htaken, hpending]
    exact Nat.one_pos

omit [Externals] [DecidableEq ι] in
theorem rank_lt_iff : c'.rank logged < c.rank logged ↔ c'.missing logged < c.missing logged ∨
    c'.missing logged = c.missing logged ∧ (c'.untold < c.untold ∨ c'.untold = c.untold ∧
      ((c'.total fun k => k.changed.toNat) < (c.total fun k => k.changed.toNat) ∨
        (c'.total fun k => k.changed.toNat) = (c.total fun k => k.changed.toNat) ∧
          ((c'.total fun k => k.announces.length) < (c.total fun k => k.announces.length) ∨
            (c'.total fun k => k.announces.length) = (c.total fun k => k.announces.length) ∧
              c'.total (left logged.card) < c.total (left logged.card)))) := by
  unfold rank
  simp only [Prod.Lex.toLex_lt_toLex]

omit [Externals] in
/-- The pulls of a connection have less to do once one is opened. -/
theorem left_opening {limit : ℕ} {k : Connection} (running : k.link.pull ≠ .idle) (unopened : k.exchange = none)
    (pullerHead head : EnvelopeDigest) : left limit { k with exchange := some (.opening pullerHead head) } < left limit k := by
  have hopening : (Exchange.opening pullerHead head).left limit = 4 * limit + 16 := by
    show 4 + (3 + 0) + (4 * limit + 9 + 0) + 2 * (0 + 0) = _
    omega
  have howed : 1 ≤ owed k.link.pull := by
    unfold owed
    split
    · contradiction
    · exact Nat.le_refl 1
    · exact Nat.le_succ 1
  unfold left
  rw [unopened]
  dsimp only
  rw [hopening]
  obtain ⟨n, hn⟩ := Nat.exists_eq_add_of_le howed
  rw [hn, Nat.add_sub_cancel_left, Nat.add_mul]
  omega

omit [Externals] in
/-- And less when it is over. -/
theorem left_settled {limit : ℕ} {k : Connection} {x : Exchange} (underway : k.exchange = some x) (tasks : List PeerLink.Task)
    (outcome : PullOutcome) : left limit { k with
      link := (PeerLink.Link.settle { k.link with tasks } (.pulled (.ok outcome))).2, exchange := none } < left limit k := by
  have howed : owed (PeerLink.Link.settle { k.link with tasks } (.pulled (.ok outcome))).2.pull = owed k.link.pull - 1 := by
    obtain ⟨changed, announces, ⟨tasks', pull⟩, exchange⟩ := k
    cases pull <;> rfl
  unfold left
  rw [underway]
  dsimp only
  rw [howed]
  omega

variable [Encoding]

/-- A step of a session brings an envelope, or leaves the nodes as they were and the session with less to do. -/
theorem Kept.talks_descends (h : c.Kept W) (hwithin : c.Within logged) {e i : ι} {k : Connection} {x : Exchange} {q : Pull}
    (up : c.conns e i = some k) (underway : k.exchange = some x)
    (step : Pull.Step x.head (x.pull (c.nodes i).core (c.nodes e).core) q) :
    ((c.put i ((c.nodes i).moved q.here)).link e i (some { k with exchange := some (x.went q) })).rank logged < c.rank logged := by
  obtain ⟨hkept, hne⟩ := h.conn e i k up
  have hhonest := (hkept.honest x underway).1
  have hmove := hhonest.step_moves step
  obtain ⟨hmoved, hcore, -⟩ := (h.node i).moved hmove
  obtain ⟨hfull, hgrows⟩ := (h.node i).full.moves hmove
  rw [rank_lt_iff]
  by_cases hnew : ∃ d, q.here.storage.Stored d ∧ ¬ (c.nodes i).core.storage.Stored d
  · obtain ⟨d, hd, hold⟩ := hnew
    refine .inl (missing_put ?_ ?_ hold ?_)
    · rw [hcore]
      exact hgrows
    · rw [hcore]
      exact hd
    · rcases hhonest.step_gained step hd with hd | hd
      · exact hwithin i d hd
      · exact hwithin e d hd
  · -- with nothing new in its log the node stands where it stood
    have hsame : ∀ d, q.here.storage.Stored d → (c.nodes i).core.storage.Stored d := fun d hd => by
      by_contra hold
      exact hnew ⟨d, hd, hold⟩
    have hhead : q.here.head = (c.nodes i).core.head :=
      hfull.eq_head (h.node i).full (hgrows.stored (h.node i).full.head_stored) (hsame _ hfull.head_stored)
    have hnode : (c.nodes i).moved q.here = { c.nodes i with core := q.here } := by
      unfold Node.moved
      exact if_neg (not_not.2 hhead)
    rw [hnode]
    have hnodes : ∀ j, (c.put i { c.nodes i with core := q.here }).nodes j =
        if j = i then { c.nodes i with core := q.here } else c.nodes j := fun j => by rw [put]; exact Function.update_apply ..
    have hup : (c.put i { c.nodes i with core := q.here }).conns e i = some k := up
    refine .inr ⟨?_, .inr ⟨?_, .inr ⟨total_link_eq hup rfl, .inr ⟨total_link_eq hup rfl, total_link_lt hup ?_⟩⟩⟩⟩
    · refine missing_congr fun j d => ?_
      show ((c.put i { c.nodes i with core := q.here }).nodes j).core.storage.Stored d ↔ _
      rw [hnodes]
      split
      · rename_i hj
        subst hj
        exact ⟨hsame d, fun hd => hgrows.stored hd⟩
      · rfl
    · unfold untold
      refine Finset.sum_congr rfl fun j _ => ?_
      show Option.elim (((c.put i { c.nodes i with core := q.here }).nodes j).heads.pending) 0 _ = _
      rw [hnodes]
      split
      · rename_i hj
        rw [hj]
      · rfl
    · have hthere : q.there = (c.nodes e).core := step.there_eq
      have hspends := step.spends x ((hhonest.step step).sent_le fun d hd => hwithin e d (by rw [← hthere]; exact hd))
      unfold left
      rw [underway]
      dsimp only
      have hx : x.went (x.pull (c.nodes i).core (c.nodes e).core) = x := rfl
      rw [hx] at hspends
      omega

/-- Every piece of work is one less to do. -/
theorem Kept.descends (h : c.Kept W) (hwithin : c.Within logged) (work : c.Work c') : c'.rank logged < c.rank logged := by
  cases work with
  | @delivers e moved heads taken =>
    obtain ⟨hpending, rfl⟩ := Prod.mk.inj taken
    rw [rank_lt_iff]
    have huntold : (c.put e { c.nodes e with heads := { (c.nodes e).heads with pending := none }, watch := moved.head }).untold <
        c.untold := untold_put hpending rfl
    refine .inr ⟨missing_congr fun j d => ?_, .inl huntold⟩
    show (Function.update c.nodes e _ j).core.storage.Stored d ↔ _
    rw [Function.update_apply]
    split
    · rename_i hj
      rw [hj]
    · rfl
  | @announces e i k up changed =>
    rw [rank_lt_iff]
    refine .inr ⟨rfl, .inr ⟨rfl, .inl (total_link_lt up ?_)⟩⟩
    rw [changed]
    exact Nat.one_pos
  | @hears e i k head up underway =>
    rw [rank_lt_iff]
    refine .inr ⟨rfl, .inr ⟨rfl, .inr ⟨total_link_eq up rfl, .inl (total_link_lt up ?_)⟩⟩⟩
    rw [List.length_erase_of_mem underway]
    exact Nat.sub_lt (List.length_pos_of_mem underway) Nat.one_pos
  | @opens e i k up task unopened pullerHead =>
    rw [rank_lt_iff]
    refine .inr ⟨rfl, .inr ⟨rfl, .inr ⟨total_link_eq up rfl, .inr ⟨total_link_eq up rfl, total_link_lt up ?_⟩⟩⟩⟩
    exact left_opening ((PeerLink.Link.pull_mem_tasks (h.conn e i k up).1.single).1 task) unopened pullerHead _
  | @talks e i k x q up underway step => exact h.talks_descends hwithin up underway step
  | @settles e i k x outcome up underway landed =>
    rw [rank_lt_iff]
    refine .inr ⟨rfl, .inr ⟨rfl, .inr ⟨total_link_eq up rfl, .inr ⟨total_link_eq up rfl, total_link_lt up ?_⟩⟩⟩⟩
    exact left_settled underway _ outcome

omit [Fintype ι] in
/-- What comes to a node comes from another. -/
theorem Kept.within (h : c.Kept W) (hwithin : c.Within logged) (work : c.Work c') : c'.Within logged := by
  cases work with
  | @delivers e moved heads taken =>
    intro j d hd
    change (Function.update c.nodes e _ j).core.storage.Stored d at hd
    rw [Function.update_apply] at hd
    split at hd
    · exact hwithin e d hd
    · exact hwithin j d hd
  | announces => exact hwithin
  | hears => exact hwithin
  | opens => exact hwithin
  | @talks e i k x q up underway step =>
    intro j d hd
    obtain ⟨hkept, -⟩ := h.conn e i k up
    have hhonest := (hkept.honest x underway).1
    change (Function.update c.nodes i _ j).core.storage.Stored d at hd
    rw [Function.update_apply] at hd
    split at hd
    · rw [((h.node i).moved (hhonest.step_moves step)).2.1] at hd
      rcases hhonest.step_gained step hd with hd | hd
      · exact hwithin i d hd
      · exact hwithin e d hd
    · exact hwithin j d hd
  | settles => exact hwithin

omit [Externals] [Encoding] [DecidableEq ι] in
/-- What the nodes log is finite. -/
theorem exists_within (c : Cluster ι) :
    ∃ logged, c.Within logged ∧ ∀ d ∈ logged, ∃ i, (c.nodes i).core.storage.Stored d := by
  classical
  have hkeys : ∀ i d, (c.nodes i).core.storage.Stored d ↔ d ∈ (c.nodes i).core.storage.envelopes.keys := by
    intro i d
    rw [ExtTreeMap.mem_keys, ExtTreeMap.mem_iff_isSome_getElem?, Option.isSome_iff_exists]
    constructor
    · rintro ⟨e, he⟩
      obtain ⟨entry, hentry, -⟩ := Option.map_eq_some_iff.1 he
      exact ⟨entry, hentry⟩
    · rintro ⟨entry, hentry⟩
      exact ⟨_, Option.map_eq_some_iff.2 ⟨entry, hentry, rfl⟩⟩
  refine ⟨Finset.univ.biUnion fun i => (c.nodes i).core.storage.envelopes.keys.toFinset, fun i d hd => ?_, fun d hd => ?_⟩
  · exact Finset.mem_biUnion.2 ⟨i, Finset.mem_univ i, List.mem_toFinset.2 ((hkeys i d).1 hd)⟩
  · obtain ⟨i, -, hd⟩ := Finset.mem_biUnion.1 hd
    exact ⟨i, (hkeys i d).2 (List.mem_toFinset.1 hd)⟩

omit [Fintype ι] in
/-- Work keeps what a node logs. -/
theorem Kept.grows (h : c.Kept W) (work : c.Work c') (i : ι) : (c.nodes i).core.storage.LogGrows (c'.nodes i).core.storage := by
  cases work with
  | @delivers e moved heads taken =>
    show (c.nodes i).core.storage.LogGrows (Function.update c.nodes e _ i).core.storage
    rw [Function.update_apply]
    split
    · rename_i hi
      subst hi
      exact fun _ _ he => he
    · exact fun _ _ he => he
  | announces => exact fun _ _ he => he
  | hears => exact fun _ _ he => he
  | opens => exact fun _ _ he => he
  | @talks e j k x q up underway step =>
    have hmove := ((h.conn e j k up).1.honest x underway).1.step_moves step
    show (c.nodes i).core.storage.LogGrows (Function.update c.nodes j _ i).core.storage
    rw [Function.update_apply]
    split
    · rename_i hi
      subst hi
      rw [((h.node i).moved hmove).2.1]
      exact ((h.node i).full.moves hmove).2
    · exact fun _ _ he => he
  | settles => exact fun _ _ he => he

omit [Fintype ι] in
/-- And every connection. -/
theorem Work.hears_iff (work : c.Work c') (e i : ι) : c'.Hears e i ↔ c.Hears e i := by
  have hlink : ∀ {c : Cluster ι} {e' i' : ι} {k k' : Connection}, c.conns e' i' = some k →
      ((c.link e' i' (some k')).Hears e i ↔ c.Hears e i) := by
    intro c e' i' k k' up
    unfold Hears
    rw [conns_link]
    split
    · rename_i hsame
      rw [hsame.1, hsame.2, up]
      exact Iff.rfl
    · exact Iff.rfl
  cases work with
  | @delivers e' moved heads taken =>
    unfold Hears
    show (if e = e' then (c.conns e' i).map _ else c.conns e i).isSome ↔ _
    split
    · rename_i he
      rw [he, Option.isSome_map]
    · exact Iff.rfl
  | announces up => exact hlink up
  | hears up => exact hlink up
  | opens up => exact hlink up
  | @talks e' i' k x q up => exact hlink (c := c.put i' ((c.nodes i').moved q.here)) up
  | settles up => exact hlink up

end Descends

/-! ## Coming to rest -/

section Rest

variable [Externals] [Encoding] {ι : Type} [Finite ι] [DecidableEq ι] {W : World} {c c' : Cluster ι}

theorem Kept.acc (h : c.Kept W) : Acc (fun c' c => c.Work c') c := by
  have := Fintype.ofFinite ι
  obtain ⟨logged, hwithin, -⟩ := exists_within c
  have hkeep : ∀ a b : Cluster ι, a.Kept W ∧ a.Within logged → a.Work b → b.Kept W ∧ b.Within logged :=
    fun a b ha hab => ⟨ha.1.work hab, ha.1.within ha.2 hab⟩
  have hless : ∀ a b : Cluster ι, a.Kept W ∧ a.Within logged → a.Work b → b.rank logged < a.rank logged :=
    fun a b ha hab => ha.1.descends ha.2 hab
  exact Descent.acc hkeep hless ⟨h, hwithin⟩

/-- What a stretch of work leaves of a cluster. -/
theorem Kept.steps (h : c.Kept W) (steps : Relation.ReflTransGen Cluster.Work c c') : c'.Kept W ∧
    (∀ i d, (c.nodes i).core.storage.Stored d → (c'.nodes i).core.storage.Stored d) ∧
      (∀ i d, (c'.nodes i).core.storage.Stored d → ∃ j, (c.nodes j).core.storage.Stored d) ∧
        ∀ e i, c'.Hears e i ↔ c.Hears e i := by
  have := Fintype.ofFinite ι
  obtain ⟨logged, hwithin, hlogged⟩ := exists_within c
  have hall : c'.Kept W ∧ c'.Within logged ∧ (∀ i, (c.nodes i).core.storage.LogGrows (c'.nodes i).core.storage) ∧
      ∀ e i, c'.Hears e i ↔ c.Hears e i := by
    induction steps with
    | refl => exact ⟨h, hwithin, fun _ _ _ he => he, fun _ _ => Iff.rfl⟩
    | tail _ work ih =>
      obtain ⟨hkept, hwithin', hgrows, hhears⟩ := ih
      exact ⟨hkept.work work, hkept.within hwithin' work, fun i d e he => hkept.grows work i d e (hgrows i d e he),
        fun e i => (work.hears_iff e i).trans (hhears e i)⟩
  obtain ⟨hkept, hwithin', hgrows, hhears⟩ := hall
  exact ⟨hkept, fun i d hd => (hgrows i).stored hd, fun i d hd => hlogged d (hwithin' i d hd), hhears⟩

omit [Encoding] [Finite ι] [DecidableEq ι] in
/-- A path is no longer than the logs are large. -/
theorem Kept.short (h : c.Kept W) {logged : Finset EnvelopeDigest} (hwithin : c.Within logged) (i : ι)
    (path : List EnvelopeDigest) (hpath : (c.nodes i).core.walkCanonical = .ok path) : path.length ≤ logged.card := by
  classical
  have hfull := (h.node i).full
  obtain ⟨path', hpath', hline⟩ := Core.walkCanonical_eq_ok hfull.good.acyclic
  obtain rfl : path' = path := Except.ok.inj (hpath'.symm.trans hpath)
  have hsub : path'.toFinset ⊆ logged := fun d hd =>
    hwithin i d (hfull.stored_of_desc (hline.mem_iff.1 (List.mem_toFinset.1 hd)))
  rw [← List.toFinset_card_of_nodup (hline.nodup hfull.good.acyclic)]
  exact Finset.card_le_card hsub

/-- However nodes of one `Init` came to stand, their work ends: no run of it goes on for ever, whichever piece is
done next. Where it ends the nodes lost nothing they had, made nothing up, and those that hear of each other
have one head and one state. -/
theorem Runs.rests [Nonempty ι] {contents : Set SignedPortion} (laws : DigestLaws contents) {start : Envelope}
    (content : start.toSignedPortion ∈ contents) {cores : ι → Core} (grown : ∀ i, (cores i).Grown contents start)
    (run : Cluster.Runs contents (Cluster.started cores) c) :
    (∀ work : ℕ → Cluster ι, work 0 = c → ∃ n, ¬ (work n).Work (work (n + 1))) ∧
    (∃ c', Relation.ReflTransGen Cluster.Work c c' ∧ c'.Quiet) ∧
    ∀ c', Relation.ReflTransGen Cluster.Work c c' → c'.Quiet →
      (∀ i d, (c.nodes i).core.storage.Stored d → (c'.nodes i).core.storage.Stored d) ∧
      (∀ i d, (c'.nodes i).core.storage.Stored d → ∃ j, (c.nodes j).core.storage.Stored d) ∧
        ((∃ logged : Finset EnvelopeDigest, logged.card ≤ 2 ^ 62 ∧ c.Within logged) →
          ∀ i j, Relation.ReflTransGen c.Hears i j → Relation.ReflTransGen c.Hears j i →
            (c'.nodes i).core.head = (c'.nodes j).core.head ∧ ∃ state,
              (c'.nodes i).core.chain.checkpoint (c'.nodes i).core.storage = .ok state ∧
                (c'.nodes j).core.chain.checkpoint (c'.nodes j).core.storage = .ok state) := by
  obtain ⟨i₀⟩ := ‹Nonempty ι›
  obtain ⟨W, rfl, hkept⟩ := Runs.exists_kept laws content grown i₀ run
  refine ⟨Descent.not_forever hkept.acc, Descent.exists_end hkept.acc, fun c' steps quiet => ?_⟩
  obtain ⟨hkept', hkeeps, hcame, hhears⟩ := hkept.steps steps
  refine ⟨hkeeps, hcame, ?_⟩
  rintro ⟨logged, hcard, hwithin⟩ i j hij hji
  have short : ∀ i path, (c'.nodes i).core.walkCanonical = .ok path → path.length ≤ 2 ^ 62 := by
    intro i path hpath
    have hwithin' : c'.Within logged := fun i d hd => (hcame i d hd).elim fun j hj => hwithin j d hj
    exact (hkept'.short hwithin' i path hpath).trans hcard
  have hpath : ∀ {i j}, Relation.ReflTransGen c.Hears i j → Relation.ReflTransGen c'.Hears i j :=
    fun hpath => Relation.ReflTransGen.mono (fun e i hears => (hhears e i).2 hears) _ _ hpath
  exact hkept'.same_heads quiet short (hpath hij) (hpath hji)

end Rest

end Cluster

end IrohLotus.Lotusd

/-! ## The samples -/

namespace IrohLotus.Lotusd

open Std Outcome IrohLotus.Wire IrohLotus.Wire.Sample IrohLotus.Storage IrohLotus.State IrohLotus.Sync

/-- Two nodes that dialled each other agree in the end. -/
theorem rests_linear : ∃ c : Cluster Bool, c.Quiet ∧ (c.nodes true).core.storage.Stored secondDigest ∧
    (c.nodes false).core.head = (c.nodes true).core.head := by
  have hgenesis : genesis.toSignedPortion ∈ table.map Prod.fst := by decide +kernel
  have hgrown : ∀ ahead, (sampleCores ahead).Grown Sample.contents genesis := by
    intro ahead
    cases ahead
    · exact grown_genesisCore
    · exact grown_linearCore
  have hkeys : (∀ d ∈ genesisCore.storage.envelopes.keys, d ∈ ({genesisDigest, firstDigest, secondDigest} : Finset EnvelopeDigest)) ∧
      ∀ d ∈ linearCore.storage.envelopes.keys, d ∈ ({genesisDigest, firstDigest, secondDigest} : Finset EnvelopeDigest) := by
    decide +kernel
  have hsome : (linearCore.storage.envelope secondDigest).isSome := by decide +kernel
  have run : Cluster.Runs Sample.contents (.started sampleCores)
      (((Cluster.started sampleCores).link true false (some (.new linearCore.head))).link false true (some (.new genesisCore.head))) :=
    .step (.step .start (.connects (by decide))) (.connects (by decide))
  obtain ⟨-, ⟨c, steps, quiet⟩, hends⟩ := Cluster.Runs.rests sample_laws hgenesis hgrown run
  obtain ⟨hkeeps, -, hagree⟩ := hends c steps quiet
  have hlogged : ∀ i d, ((Cluster.started sampleCores).nodes i).core.storage.Stored d →
      d ∈ ({genesisDigest, firstDigest, secondDigest} : Finset EnvelopeDigest) := by
    rintro i d ⟨e, he⟩
    obtain ⟨entry, hentry, -⟩ := Option.map_eq_some_iff.1 he
    have hmem := ExtTreeMap.mem_keys.2 (ExtTreeMap.mem_iff_isSome_getElem?.2 (Option.isSome_iff_exists.2 ⟨entry, hentry⟩))
    cases i
    · exact hkeys.1 d hmem
    · exact hkeys.2 d hmem
  refine ⟨c, quiet, hkeeps true secondDigest (Option.isSome_iff_exists.1 hsome), ?_⟩
  have hcard : ({genesisDigest, firstDigest, secondDigest} : Finset EnvelopeDigest).card ≤ 2 ^ 62 :=
    Finset.card_le_three.trans (by decide)
  exact (hagree ⟨_, hcard, hlogged⟩ false true (.single rfl) (.single rfl)).1

end IrohLotus.Lotusd
