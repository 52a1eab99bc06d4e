/-
What a join comes to on a cluster that was never compacted, whatever else the sponsor's mainloop inserts and
whenever the connection is lost: neither side sees the other break the protocol, both pulls go through, the
joiner stands on the root its invite pinned with nothing the sponsor does not have, and fails for reasons
the code names alone. Left to themselves the two come to an end, where the joiner was refused or stands
at the sponsor's head, admitted.
-/
import IrohLotus.Lotusd.Bootstrap
import IrohLotus.Lotusd.Rest

namespace IrohLotus.Lotusd

open Std Outcome Forest IrohLotus.Wire IrohLotus.Storage IrohLotus.State IrohLotus.Sync

/-! ## Moves of the sponsor -/

section Moves

variable [Externals] {contents : Set SignedPortion} {W : World} {core core' : Core} {keys : NodeKeys}

/-- A signed write is an insert, or nothing. -/
theorem Core.signWrite_moves (signed : ∀ e e', keys.sign e = .ok e' → e'.toSignedPortion ∈ contents) (core : Core)
    (build : EnvelopeDigest → Msg) :
    Relation.ReflTransGen (Core.Moves contents) core (core.signWrite keys build).2 := by
  unfold Core.signWrite
  dsimp only
  split
  · exact .refl
  · rename_i envelope digest hsign
    obtain ⟨e, he, hsign⟩ := Res.bind_eq_ok hsign
    obtain ⟨d, -, hsign⟩ := Res.bind_eq_ok hsign
    cases hsign
    have hmem : ∀ x ∈ [envelope], x.toSignedPortion ∈ contents := by
      intro x hx
      rw [List.mem_singleton.1 hx]
      exact signed _ _ (Res.ofExcept_eq_ok he)
    have hmove : core.Moves contents (core.insert [envelope]).2 := by
      unfold Core.insert
      dsimp only
      rw [insert_insertBatch]
      exact .insertBatch hmem
    exact .single hmove

theorem Core.admit_moves [AddrText] (signed : ∀ e e', keys.sign e = .ok e' → e'.toSignedPortion ∈ contents)
    {core : Core} {key : Key}
    {addr : EndpointAddr} {outcome : Res Error EnvelopeDigest} (run : core.admit keys key addr = (outcome, core')) :
    Relation.ReflTransGen (Core.Moves contents) core core' := by
  unfold Core.admit at run
  dsimp only at run
  have htrusts := Core.signWrite_moves signed core (setEntry trustedKeysKey (Externals.keyIdToHex key.id) (.key key))
  split at run
  · rename_i hrun
    cases run
    rw [hrun] at htrusts
    exact htrusts
  · rename_i core₁ hrun
    cases run
    rw [hrun] at htrusts
    exact htrusts.trans (Core.signWrite_moves signed core₁ _)

omit [Externals] in
/-- Redeeming a token leaves the core. -/
theorem Sponsor.redeemInvite_core (σ : Sponsor) (token : Token) : (σ.redeemInvite token).2.core = σ.core := by
  unfold Sponsor.redeemInvite
  dsimp only
  split <;> rfl

theorem Core.Full.steps (h : core.Full W) (steps : Relation.ReflTransGen (Core.Moves W.contents) core core') :
    core'.Full W ∧ core.storage.LogGrows core'.storage := by
  induction steps with
  | refl => exact ⟨h, fun _ _ he => he⟩
  | tail _ move ih =>
    obtain ⟨hfull, hgrows⟩ := ih.1.moves move
    exact ⟨hfull, fun d e he => hgrows d e (ih.2 d e he)⟩

theorem Pull.Honest.there_steps {head : EnvelopeDigest} {p : Pull} (h : p.Honest False W head)
    (steps : Relation.ReflTransGen (Core.Moves W.contents) p.there core) :
    Pull.Honest False W head { p with there := core } := by
  induction steps with
  | refl => exact h
  | tail _ move ih => exact ih.there_moves id move

end Moves

end IrohLotus.Lotusd

namespace IrohLotus.Lotusd.Bootstrap

open Std Outcome Forest IrohLotus.Wire IrohLotus.Storage IrohLotus.State IrohLotus.Sync

/-! ## The pulls of a join -/

section Pulls

variable [Externals] [Encoding] {still : Prop} {W : World} {head : EnvelopeDigest} {p : Pull}

/-- A puller has nothing to fail at. -/
theorem not_pullerFails (h : p.Honest still W head) (why : SyncError) : ¬ PullerFails p why := by
  have hsurvives := h.survives_of_honest
  rintro (⟨front⟩ | ⟨front, failed⟩ | ⟨front, failed⟩)
  · have htalks := h.talks
    obtain ⟨here, there, ⟨machine, pending, fed, effects⟩, server, toServer, toPuller⟩ := p
    unfold Pull.Talks at htalks
    dsimp only at front htalks
    subst front
    cases htalks
  · obtain ⟨a, hanswer, -⟩ := hsurvives.asked.1 _ _ front
    rw [failed] at hanswer; cases hanswer
  · obtain ⟨i, hi⟩ := hsurvives.ingests _ _ front
    rw [failed] at hi; cases hi

/-- Nor has the server. -/
theorem not_serverFails (h : p.Honest still W head) (why : SyncError) : ¬ ServerFails p why := by
  rintro (⟨front⟩ | ⟨front, failed⟩)
  · have htalks := h.talks
    obtain ⟨here, there, ⟨machine, pending, fed, effects⟩, ⟨machine', pending', fed', effects'⟩, toServer,
      toPuller⟩ := p
    unfold Pull.Talks at htalks
    dsimp only at front htalks
    subst front
    have hstreams : ∀ {cursor : EnvelopeDigest} {sent : Nat} {finished : Bool} {state : Server.State} {b : Breach}
        {pending : List (Effect ServeOutcome)} {wire ahead : List Sync.Message},
        ¬ Streams cursor sent finished state (.violation b :: pending) wire ahead := by
      intro cursor sent finished state b pending wire ahead hstreams
      cases hstreams
    cases htalks with
    | split flow offered reached streams stream => exact hstreams streams
    | streaming flow count reached streams stream => exact hstreams streams
    | ingesting flow last linked reached counts streams stream => exact hstreams streams
  · obtain ⟨a, -, hanswer, -⟩ := h.survives_of_honest.asked.2 _ _ front
    rw [failed] at hanswer; cases hanswer

omit [Encoding] in
/-- A puller that is done leaves its server done, or idle. -/
theorem served_of_landed (h : p.Honest still W head) {outcome : PullOutcome}
    (done : p.puller.pending = [.done outcome]) :
    outcome ≠ .noCommonHistory ∧
      ((∃ outcome, p.server.pending = [.done outcome]) ∨ p.server.pending = [] ∧ p.toServer = []) := by
  have htalks := h.talks
  obtain ⟨here, there, ⟨machine, pending, fed, effects⟩, ⟨machine', pending', fed', effects'⟩, toServer,
    toPuller⟩ := p
  unfold Pull.Talks at htalks
  dsimp only at done htalks ⊢
  cases htalks with
  | current => cases done; exact ⟨nofun, .inr ⟨rfl, rfl⟩⟩
  | parted unsplit => exact unsplit.elim
  | synced => cases done; exact ⟨nofun, .inl ⟨_, rfl⟩⟩
  | _ => cases done

end Pulls

/-! ## The root -/

section Root

variable [Externals] {contents : Set SignedPortion} {W : World} {core core' : Core}

/-- The envelope is one a joiner can open its chain on, whatever its clock. -/
structure Lays (W : World) (root : Envelope) : Prop where
  digest : root.digest = .ok W.genesis
  lays : ∀ clock, ∃ core, joinInStateDir clock root none = .ok core ∧ core.Full W ∧
    ∀ d, core.storage.Stored d → d = W.genesis

/-- The node hands its root over as an `Init`, and one to open a chain on. -/
def Hands (W : World) (core : Core) : Prop :=
  ∃ root msg, core.storage.envelope W.genesis = some root ∧ root.payload = .init msg ∧ Lays W (received root)

/-- An `Init` that was good for one chain is good for another. -/
theorem lays_of_init {e : Envelope} {msg : InitMsg} {status : VerificationStatus}
    (content : e.toSignedPortion ∈ W.contents)
    (hmsg : e.payload = .init msg) (hcheck : validateCheckpoint msg.state = .ok ()) (hd : e.digest = .ok W.genesis)
    (hver : (Ledger.mk W.genesis).verifyEnvelope (only W.genesis msg.state.namespaces) e = .ok status)
    (hstate : msg.state.namespaces = W.state) : Lays W e := by
  refine ⟨hd, fun clock => ?_⟩
  have hdigest : (e.setVerificationStatus status).digest = .ok W.genesis :=
    (Envelope.digest_setVerificationStatus e status).trans hd
  have hsettled := settled_single clock hdigest
    content (@World.StateOf.genesis _ W)
  have hlaid : joinInStateDir clock e none = .ok ⟨⟨W.genesis, ⟨W.genesis⟩⟩,
      ((MemStorage.empty clock).install W.genesis W.state).putEnvelope W.genesis (e.setVerificationStatus status),
        W.genesis⟩ := by
    unfold joinInStateDir
    rw [← hstate]
    simp only [init_of_valid clock hmsg hcheck hd hver]
    rfl
  refine ⟨_, hlaid, ⟨hsettled.good, rfl, rfl, ?_, hsettled.allHeld⟩, ?_⟩
  · rw [MemStorage.parent_of_envelope _ hsettled.root]
    change e.payload.prevDigest = none
    rw [hmsg]; rfl
  · rintro d ⟨e', he'⟩
    dsimp only at he'
    rw [MemStorage.envelope_putEnvelope] at he'
    split at he'
    · rename_i heq
      exact heq.symm
    · simp [MemStorage.empty, MemStorage.envelope, MemStorage.loggedEnvelope, MemStorage.install] at he'

theorem Hands.grows (h : Hands W core) (hgrows : core.storage.LogGrows core'.storage) : Hands W core' := by
  obtain ⟨root, msg, hroot, hmsg, hlays⟩ := h
  exact ⟨root, msg, hgrows _ _ hroot, hmsg, hlays⟩

/-- A node grown from its `Init` hands that over. -/
theorem hands_of_grown {start : Envelope} (content : start.toSignedPortion ∈ W.contents)
    (hfull : ∀ core, Core.Grown W.contents start core → core.Full W) (grown : core.Grown W.contents start) :
      Hands W core := by
  induction grown with
  | @init clock chain storage run =>
    have hroot := (hfull _ (.init run)).root
    obtain ⟨msg, status, d, hmsg, hcheck, hd, hver, rfl, rfl⟩ := init_eq_ok run
    obtain rfl : d = W.genesis := hroot
    have hstate := (W.initial start.toSignedPortion content hd msg hmsg).2.symm
    refine ⟨start.setVerificationStatus status, msg, by rw [MemStorage.envelope_putEnvelope, if_pos rfl], hmsg, ?_⟩
    have hreceived : (received (start.setVerificationStatus status)).digest = .ok W.genesis :=
      (Envelope.digest_setVerificationStatus _ _).trans
        ((Envelope.digest_setVerificationStatus start status).trans hd)
    have hagain : (Ledger.mk W.genesis).verifyEnvelope (only W.genesis msg.state.namespaces)
        (received (start.setVerificationStatus status)) = .ok status := by
      show (Ledger.mk W.genesis).verifyEnvelope _
        ((start.setVerificationStatus status).setVerificationStatus .unchecked) = _
      rw [verifyEnvelope_setVerificationStatus, verifyEnvelope_setVerificationStatus]
      exact hver
    exact lays_of_init content hmsg hcheck hreceived hagain hstate
  | moves before move ih => exact ih.grows ((hfull _ before).moves move).2

/-- What a full node answers a good token with. -/
theorem Hands.welcomeRoot (h : Hands W core) (hfull : core.Full W) :
    ∃ root, core.welcomeRoot = .ok (root, none) ∧ Lays W (received root) := by
  obtain ⟨root, msg, hroot, hmsg, hlays⟩ := h
  have holdest : core.oldest = W.genesis := hfull.oldest.trans hfull.root
  refine ⟨root, ?_, hlays⟩
  unfold Core.welcomeRoot Core.rootEnvelope
  rw [holdest]
  simp only [hroot, Res.expect_some, Res.ok_bind, hmsg]
  rfl

end Root

/-! ## What is kept of a join -/

/-- What a joiner may fail for. -/
def JoinError.Fair : JoinError → Prop
  | .inviteVersion _ | .lost | .refused _ | .admissionMissing | .sponsorNotTrusted | .notTrusted => True
  | .unexpected _ _ | .rootMismatch _ _ | .undigestable _ | .init _ | .sync _ | .noCommonHistory | .chain _ => False

/-- What the task that serves it may fail for. -/
def ServeError.Fair : ServeError → Prop
  | .lost | .invite (.error _) | .admission (.error _) => True
  | .unexpected _ _ | .version _ | .invite _ | .sync _ | .admission _ => False

/-! ## What each makes of the other -/

section Frames

variable [Externals] {W : World} {core : Core} {keys : NodeKeys}

/-- A token that is refused is refused for a reason, and one that is good is answered with the root. -/
theorem Hands.redeemInvite {σ : Sponsor} (h : Hands W σ.core) (hfull : σ.core.Full W) (token : Token) :
    (σ.redeemInvite token).2.core = σ.core ∧
      ((∃ root weight, (σ.redeemInvite token).1 = .ok ⟨root, none, weight⟩ ∧ Lays W (received root)) ∨
        ∃ why, (σ.redeemInvite token).1 = .error (.error why)) := by
  obtain ⟨root, hroot, hlays⟩ := h.welcomeRoot hfull
  refine ⟨σ.redeemInvite_core token, ?_⟩
  unfold Sponsor.redeemInvite
  dsimp only
  cases hredeem : (Invites.redeem σ.invites token σ.now).1 with
  | error why =>
    have hwelcome : σ.welcome (.error why) = .error (.error (.redeem why)) := rfl
    rw [hwelcome]
    exact .inr ⟨_, rfl⟩
  | ok weight =>
    have hwelcome : σ.welcome (.ok weight) = .ok ⟨root, none, weight⟩ := by
      unfold Sponsor.welcome
      rw [hroot]
      rfl
    rw [hwelcome]
    exact .inl ⟨root, weight, rfl, hlays⟩

theorem Lays.readWelcome {root : Envelope} (h : Lays W (received root)) {invite : Invited}
    (pinned : invite.root = W.genesis) (clock : StoredAt) :
    ∃ core, readWelcome invite clock (.received (.welcome root none)) = .pulls core ∧ core.Full W ∧
      ∀ d, core.storage.Stored d → d = W.genesis := by
  obtain ⟨core, hcore, hfull, honly⟩ := h.lays clock
  refine ⟨core, ?_, hfull, honly⟩
  unfold Bootstrap.readWelcome Message.received
  simp only [h.digest, pinned, ne_eq, not_true_eq_false, if_false, hcore]

/-- An admission that is refused is refused for a reason. -/
theorem Parties.admission_cases [AddrText] {p : Parties} (hfull : core.Full W)
    (signed : ∀ e e', p.sponsor.sign e = .ok e' → e'.toSignedPortion ∈ W.contents) (key : PublicKey)
    (weight : UInt32) :
    (∃ d, (p.admission core key weight).1 = .ok d) ∨
      ∃ err, (p.admission core key weight).1 = .error (.error err) := by
  have hcontent : ∀ msg e, p.sponsor.sign (Envelope.new msg) = .ok e → e.toSignedPortion ∈ W.contents :=
    fun _ e he => signed _ e he
  obtain ⟨v, -, hwrite⟩ := Core.signWrite_cases hfull.good
    (Core.setEntry trustedKeysKey (Externals.keyIdToHex (newKey key weight).id) (.key (newKey key weight)))
      rfl (hcontent _)
  unfold Parties.admission Core.admit
  dsimp only
  rcases hwrite with ⟨err, hrun, -⟩ | ⟨e, d, v', i, core₁, -, hrun, -, -, -, hgood₁⟩
  · rw [hrun]
    exact .inr ⟨err, rfl⟩
  · rw [hrun]
    obtain ⟨v₁, -, hlist⟩ := Core.signWrite_cases hgood₁
      (Core.setEntry clusterNodesKey (Externals.keyIdToHex (newKey key weight).id) (Core.listing ⟨p.remote, []⟩))
        rfl (hcontent _)
    dsimp only
    rcases hlist with ⟨err, hrun₁, -⟩ | ⟨e₁, d₁, v₂, i₁, core₂, -, hrun₁, -⟩
    · rw [hrun₁]
      exact .inr ⟨err, rfl⟩
    · rw [hrun₁]
      exact .inl ⟨d₁, rfl⟩

theorem Parties.admission_moves [AddrText] {p : Parties} {contents : Set SignedPortion}
    (signed : ∀ e e', p.sponsor.sign e = .ok e' → e'.toSignedPortion ∈ contents) (core : Core) (key : PublicKey)
    (weight : UInt32) :
    Relation.ReflTransGen (Core.Moves contents) core (p.admission core key weight).2 :=
  Core.admit_moves signed rfl

/-- What is on the chain of a full node can be read off it. -/
theorem checkAdmitted_eq (hfull : core.Full W) (invite : Invited) (admitted : EnvelopeDigest) : ∃ v onPath,
    core.storage.versions[core.head]? = some v ∧ (onPath = true ↔ Desc core.storage.parent admitted core.head) ∧
      checkAdmitted invite keys core admitted =
        if !onPath then .error .admissionMissing
        else if !(trustedIn v).contains invite.sponsor then .error .sponsorNotTrusted
        else if !(trustedIn v).contains keys.keyId then .error .notTrusted
        else .ok () := by
  obtain ⟨v, hv⟩ : ∃ v, core.storage.versions[core.head]? = some v := hfull.good.pathHeld _ hfull.good.tip.canonical
  obtain ⟨b, hb, hiff⟩ := Chain.descends_eq_ok hfull.good.acyclic core.head admitted
  have hhead : core.storage.versions[core.chain.ledger.head]? = some v := hv
  obtain ⟨trusted, htrusted⟩ := Ledger.trustedKeys_of_ruled hhead (hfull.good.coherent.versions _ _ hv).2.ruled
  obtain rfl := trustedKeys_eq_ok hhead htrusted
  refine ⟨v, b, hv, hiff, ?_⟩
  have hcontains : core.chain.contains core.storage admitted = .ok b := hb
  unfold checkAdmitted
  rw [hcontains, htrusted]
  cases b
  · rfl
  · cases hsponsor : (trustedIn v).contains invite.sponsor <;> cases hkeys : (trustedIn v).contains keys.keyId <;>
      simp [hsponsor, hkeys, Except.mapError, Res.mapErr, Bind.bind, Except.bind, Pure.pure, Except.pure,
        throw, throwThe, MonadExceptOf.throw]

theorem checkAdmitted_eq_ok (hfull : core.Full W) {invite : Invited} {admitted : EnvelopeDigest}
    (checked : checkAdmitted invite keys core admitted = .ok ()) : ∃ v, core.storage.versions[core.head]? = some v ∧
      Desc core.storage.parent admitted core.head ∧ (trustedIn v).contains invite.sponsor = true ∧
        (trustedIn v).contains keys.keyId = true := by
  obtain ⟨v, onPath, hv, hiff, heq⟩ := checkAdmitted_eq hfull invite admitted
  rw [heq] at checked
  cases hpath : onPath <;> cases hsponsor : (trustedIn v).contains invite.sponsor <;>
    cases hkeys : (trustedIn v).contains keys.keyId <;> simp [hpath, hsponsor, hkeys] at checked
  exact ⟨v, hv, hiff.1 hpath, hsponsor, hkeys⟩

theorem fair_of_checkAdmitted (hfull : core.Full W) {invite : Invited} {admitted : EnvelopeDigest} {why : JoinError}
    (refused : checkAdmitted invite keys core admitted = .error why) : why.Fair := by
  obtain ⟨v, onPath, -, -, heq⟩ := checkAdmitted_eq hfull invite admitted
  rw [heq] at refused
  split at refused
  · cases refused; trivial
  · split at refused
    · cases refused; trivial
    · split at refused
      · cases refused; trivial
      · cases refused

end Frames

section Kept

variable [Externals]

/-- Between the `Welcome` and the `Admitted`. -/
def Joining.Pulling : Joining → Prop
  | .pulls _ | .awaitsAdmitted _ => True
  | .starts | .awaitsWelcome | .pullsAgain _ _ | .joined _ _ | .failed _ => False

/-- After the `Admitted`. -/
def Joining.Checking : Joining → Prop
  | .pullsAgain _ _ | .joined _ _ => True
  | .starts | .awaitsWelcome | .pulls _ | .awaitsAdmitted _ | .failed _ => False

/-- Once the admission is done. -/
def Serving.Past : Serving → Prop
  | .servesAgain _ | .awaitsEnd _ | .done _ => True
  | .awaitsJoin | .redeems _ _ | .serves _ _ | .admits _ _ | .failed _ => False

/-- The frames a joiner may still find on its stream. -/
inductive Hears (W : World) : Joining → List Message → Prop
  | starts : Hears W .starts []
  | awaits : Hears W .awaitsWelcome []
  | welcome {root : Envelope} (lays : Lays W (received root)) : Hears W .awaitsWelcome [.welcome root none]
  | refused (why : ServeError) : Hears W .awaitsWelcome [.refused why]
  | pulling {joining : Joining} (pulling : joining.Pulling) : Hears W joining []
  | admitted {joining : Joining} (pulling : joining.Pulling) (digest : EnvelopeDigest) :
      Hears W joining [.admitted digest]
  | rejected {joining : Joining} (pulling : joining.Pulling) (why : ServeError) : Hears W joining [.refused why]
  | checking {joining : Joining} (checking : joining.Checking) : Hears W joining []
  | failed {why : JoinError} {frames : List Message} : Hears W (.failed why) frames

/-- How the two stand to each other while neither has failed. -/
inductive Meets (p : Parties) : Serving → Joining → List Message → List Message → Prop
  | connected : Meets p .awaitsJoin .starts [] []
  | asked : Meets p .awaitsJoin .awaitsWelcome [.join PROTOCOL_VERSION p.invite.token p.joiner.publicKey] []
  | redeeming : Meets p (.redeems p.invite.token p.joiner.publicKey) .awaitsWelcome [] []
  | welcoming (weight : UInt32) (root : Envelope) :
    Meets p (.serves p.joiner.publicKey weight) .awaitsWelcome [] [.welcome root none]
  | serving {joining : Joining} (pulling : joining.Pulling) (weight : UInt32) :
      Meets p (.serves p.joiner.publicKey weight) joining [] []
  | admitting {joining : Joining} (pulling : joining.Pulling) (weight : UInt32) :
      Meets p (.admits p.joiner.publicKey weight) joining [] []
  | admitted {serving : Serving} {joining : Joining} (past : serving.Past) (pulling : joining.Pulling)
      (digest : EnvelopeDigest) :
    Meets p serving joining [] [.admitted digest]
  | checking {serving : Serving} {joining : Joining} (past : serving.Past) (checking : joining.Checking) :
      Meets p serving joining [] []

/-- The core of a joiner: it stands on the pinned root, and has what the sponsor has. -/
structure Draws (W : World) (there core : Core) : Prop where
  full : core.Full W
  drawn : ∀ d, core.storage.Stored d → there.storage.Stored d

/-- A session whose puller has landed: the server has an outcome, or has read all there was. -/
def Exchange.Parted (x : Exchange) : Prop :=
  (∃ outcome, x.server.pending = [.done outcome]) ∨ x.server.pending = [] ∧ x.toServer = []

/-- How far the joiner is, with the sessions it opened, beside a sponsor at `there`. -/
inductive Stands (W : World) (p : Parties) (there : Core) (first second : Option Exchange) : Joining → Prop
  | starts (unopened : first = none) (before : second = none) : Stands W p there first second .starts
  | awaitsWelcome (unopened : first = none) (before : second = none) : Stands W p there first second .awaitsWelcome
  | pulls {core : Core} (draws : Draws W there core)
      (honest : ∀ x, first = some x → (x.pull core there).Honest False W x.head)
    (before : second = none) : Stands W p there first second (.pulls core)
  | awaitsAdmitted {core : Core} (draws : Draws W there core) (parted : ∃ x, first = some x ∧ Exchange.Parted x)
    (before : second = none) : Stands W p there first second (.awaitsAdmitted core)
  | pullsAgain {core : Core} {admitted : EnvelopeDigest} (draws : Draws W there core)
    (honest : ∀ x, second = some x → (x.pull core there).Honest False W x.head) :
      Stands W p there first second (.pullsAgain core admitted)
  | joined {core : Core} {admitted : EnvelopeDigest} (draws : Draws W there core)
      (parted : ∃ x, second = some x ∧ Exchange.Parted x)
    (checked : checkAdmitted p.invite p.joiner core admitted = .ok ()) :
      Stands W p there first second (.joined core admitted)
  | failed {why : JoinError} (fair : why.Fair) : Stands W p there first second (.failed why)

/-- What holds of every state of a join. -/
structure Kept (W : World) (p : Parties) (j : Join) : Prop where
  full : j.mainloop.core.Full W
  hands : Hands W j.mainloop.core
  asks : ∀ message ∈ j.toSponsor, message = .join PROTOCOL_VERSION p.invite.token p.joiner.publicKey
  stands : Stands W p j.mainloop.core j.first j.second j.joining
  heard : Hears W j.joining j.toJoiner
  meets : (∃ why, j.joining = .failed why) ∨ (∃ why, j.serving = .failed why) ∨
    Meets p j.serving j.joining j.toSponsor j.toJoiner
  fair : ∀ why, j.serving = .failed why → why.Fair

variable {W : World} {p : Parties} {j j' : Join} {there there' : Core} {first second : Option Exchange}
  {joining joining' : Joining} {serving : Serving} {frames frames' : List Message}

theorem Draws.grows {core : Core} (h : Draws W there core) (hgrows : there.storage.LogGrows there'.storage) :
    Draws W there' core :=
  ⟨h.full, fun d hd => hgrows.stored (h.drawn d hd)⟩

theorem Stands.steps (h : Stands W p there first second joining) (hfull : there.Full W)
    (steps : Relation.ReflTransGen (Core.Moves W.contents) there there') :
      Stands W p there' first second joining := by
  obtain ⟨-, hgrows⟩ := hfull.steps steps
  cases h with
  | starts unopened before => exact .starts unopened before
  | awaitsWelcome unopened before => exact .awaitsWelcome unopened before
  | pulls draws honest before =>
    exact .pulls (draws.grows hgrows) (fun x hx => (honest x hx).there_steps steps) before
  | awaitsAdmitted draws parted before => exact .awaitsAdmitted (draws.grows hgrows) parted before
  | pullsAgain draws honest => exact .pullsAgain (draws.grows hgrows) fun x hx => (honest x hx).there_steps steps
  | joined draws parted checked => exact .joined (draws.grows hgrows) parted checked
  | failed fair => exact .failed fair

/-- The mainloop may do something else. -/
theorem Kept.elsewhere (h : Kept W p j) {mainloop : Sponsor}
    (steps : Relation.ReflTransGen (Core.Moves W.contents) j.mainloop.core mainloop.core) :
      Kept W p { j with mainloop } := by
  obtain ⟨hfull, hgrows⟩ := h.full.steps steps
  exact ⟨hfull, h.hands.grows hgrows, h.asks, h.stands.steps h.full steps, h.heard, h.meets, h.fair⟩

/-- A joiner that has failed is out of the picture. -/
theorem Kept.failed (h : Kept W p j) {why : JoinError} (fair : why.Fair) (frames : List Message) :
    Kept W p { j with joining := .failed why, toJoiner := frames } :=
  ⟨h.full, h.hands, h.asks, .failed fair, .failed, .inl ⟨why, rfl⟩, h.fair⟩

/-- The task goes on, and the joiner stays where it is. -/
theorem Kept.serves (h : Kept W p j) {serving : Serving} {toSponsor toJoiner : List Message}
    (hsub : ∀ message ∈ toSponsor, message ∈ j.toSponsor) (heard : Hears W j.joining toJoiner)
    (fair : ∀ why, serving = .failed why → why.Fair)
    (meets : (∃ why, j.joining = .failed why) ∨ (∃ why, serving = .failed why) ∨
      Meets p serving j.joining toSponsor toJoiner) :
    Kept W p { j with serving, toSponsor, toJoiner } :=
  ⟨h.full, h.hands, fun message hm => h.asks message (hsub message hm), h.stands, heard, meets, fair⟩

omit [Externals] in
theorem Joining.pulling_pulls (core : Core) : (Joining.pulls core).Pulling := trivial

omit [Externals] in
theorem Joining.checking_pullsAgain (core : Core) (admitted : EnvelopeDigest) :
    (Joining.pullsAgain core admitted).Checking := trivial

omit [Externals] in
theorem Joining.Pulling.not_checking (h : joining.Pulling) : ¬ joining.Checking := by
  cases joining with
  | pulls => exact id
  | awaitsAdmitted => exact id
  | _ => exact h.elim

theorem Hears.pulling_congr (h : Hears W joining frames) (hpulling : joining.Pulling) (hpulling' : joining'.Pulling) :
    Hears W joining' frames := by
  cases h with
  | pulling => exact .pulling hpulling'
  | admitted _ digest => exact .admitted hpulling' digest
  | rejected _ why => exact .rejected hpulling' why
  | checking checking => exact absurd checking hpulling.not_checking
  | _ => exact hpulling.elim

theorem Hears.checking_congr (h : Hears W joining frames) (hchecking : joining.Checking)
    (hchecking' : joining'.Checking) :
    Hears W joining' frames := by
  cases h with
  | pulling pulling => exact absurd hchecking pulling.not_checking
  | admitted pulling => exact absurd hchecking pulling.not_checking
  | rejected pulling => exact absurd hchecking pulling.not_checking
  | checking => exact .checking hchecking'
  | _ => exact hchecking.elim

theorem Meets.pulling_congr (h : Meets p serving joining frames frames') (hpulling : joining.Pulling)
    (hpulling' : joining'.Pulling) :
    Meets p serving joining' frames frames' := by
  cases h with
  | serving _ weight => exact .serving hpulling' weight
  | admitting _ weight => exact .admitting hpulling' weight
  | admitted past _ digest => exact .admitted past hpulling' digest
  | checking _ checking => exact absurd checking hpulling.not_checking
  | _ => exact hpulling.elim

theorem Meets.checking_congr (h : Meets p serving joining frames frames') (hchecking : joining.Checking)
    (hchecking' : joining'.Checking) :
    Meets p serving joining' frames frames' := by
  cases h with
  | serving pulling => exact absurd hchecking pulling.not_checking
  | admitting pulling => exact absurd hchecking pulling.not_checking
  | admitted _ pulling => exact absurd hchecking pulling.not_checking
  | checking past => exact .checking past hchecking'
  | _ => exact hchecking.elim

theorem Meets.past_congr {serving' : Serving} (h : Meets p serving joining frames frames') (hpast : serving.Past)
    (hpast' : serving'.Past) :
    Meets p serving' joining frames frames' := by
  cases h with
  | admitted _ pulling digest => exact .admitted hpast' pulling digest
  | checking _ checking => exact .checking hpast' checking
  | _ => exact hpast.elim

theorem Stands.draws (h : Stands W p there first second joining) {core : Core} (hcore : joining.core = some core) :
    Draws W there core := by
  cases h with
  | pulls draws => cases hcore; exact draws
  | awaitsAdmitted draws => cases hcore; exact draws
  | pullsAgain draws => cases hcore; exact draws
  | joined draws => cases hcore; exact draws
  | _ => cases hcore

theorem Stands.first_of (h : Stands W p there first second joining) {core : Core} {x : Exchange}
    (pulling : joining = .pulls core) (underway : first = some x) : (x.pull core there).Honest False W x.head := by
  subst pulling
  cases h with
  | pulls draws honest => exact honest x underway

theorem Stands.second_of (h : Stands W p there first second joining) {core : Core} {admitted : EnvelopeDigest}
    {x : Exchange} (pulling : joining = .pullsAgain core admitted) (underway : second = some x) :
    (x.pull core there).Honest False W x.head := by
  subst pulling
  cases h with
  | pullsAgain draws honest => exact honest x underway

/-! ## What one piece of work leaves of it -/

section Work

theorem Kept.asks_welcome (h : Kept W p j) (at' : j.joining = .starts) : Kept W p { j with
    joining := .awaitsWelcome
    toSponsor := j.toSponsor ++ [.join PROTOCOL_VERSION p.invite.token p.joiner.publicKey] } := by
  obtain ⟨mainloop, serving, joining, toSponsor, toJoiner, first, second⟩ := j
  obtain ⟨hfull, hhands, hasks, hstands, hheard, hmeets, hfair⟩ := h
  dsimp only at *
  subst at'
  have hnil : toJoiner = [] := by
    cases hheard with
    | starts => rfl
    | pulling pulling => exact pulling.elim
    | admitted pulling => exact pulling.elim
    | rejected pulling => exact pulling.elim
    | checking checking => exact checking.elim
  subst hnil
  refine ⟨hfull, hhands, fun message hm => ?_, ?_, .awaits, ?_, hfair⟩
  · rcases List.mem_append.1 hm with hm | hm
    · exact hasks message hm
    · exact List.mem_singleton.1 hm
  · cases hstands with
    | starts unopened before => exact .awaitsWelcome unopened before
  · rcases hmeets with ⟨why, hwhy⟩ | hfailed | hmeets
    · cases hwhy
    · exact .inr (.inl hfailed)
    · cases hmeets with
      | connected => exact .inr (.inr .asked)
      | serving pulling => exact pulling.elim
      | admitting pulling => exact pulling.elim
      | checking _ checking => exact checking.elim

theorem Kept.reads (h : Kept W p j) (at' : j.serving = .awaitsJoin) {message : Message} {frames : List Message}
    (front : j.toSponsor = message :: frames) : Kept W p { j with
      serving := (readJoin message.received).1
      toSponsor := frames
      toJoiner := j.toJoiner ++ (readJoin message.received).2 } := by
  have hmessage : message = .join PROTOCOL_VERSION p.invite.token p.joiner.publicKey :=
    h.asks message (by rw [front]; exact List.mem_cons_self)
  have hread : readJoin message.received = (.redeems p.invite.token p.joiner.publicKey, []) := by
    rw [hmessage]
    rfl
  rw [hread]
  refine h.serves (fun m hm => by rw [front]; exact List.mem_cons_of_mem _ hm) ?_ (fun why hwhy => ?_) ?_
  · rw [List.append_nil]
    exact h.heard
  · cases hwhy
  · rcases h.meets with hfailed | ⟨why, hwhy⟩ | hmeets
    · exact .inl hfailed
    · rw [at'] at hwhy
      cases hwhy
    · obtain ⟨mainloop, serving, joining, toSponsor, toJoiner, first, second⟩ := j
      dsimp only at *
      subst at' front
      cases hmeets with
      | asked => exact .inr (.inr .redeeming)

theorem Kept.redeems (h : Kept W p j) {token : Token} {key : PublicKey} (at' : j.serving = .redeems token key) :
    Kept W p { j with
      mainloop := (j.mainloop.redeemInvite token).2
      serving := (welcomed key (j.mainloop.redeemInvite token).1).1
      toJoiner := j.toJoiner ++ (welcomed key (j.mainloop.redeemInvite token).1).2 } := by
  obtain ⟨hcore, hanswer⟩ := h.hands.redeemInvite h.full token
  have hkept : Kept W p { j with mainloop := (j.mainloop.redeemInvite token).2 } := h.elsewhere (by rw [hcore])
  have hfair : ∀ why, (welcomed key (j.mainloop.redeemInvite token).1).1 = .failed why → why.Fair := by
    intro why hwhy
    rcases hanswer with ⟨root, weight, hok, -⟩ | ⟨e, herr⟩
    · rw [hok] at hwhy
      cases hwhy
    · rw [herr] at hwhy
      cases hwhy
      trivial
  rcases h.meets with ⟨why, hwhy⟩ | ⟨why, hwhy⟩ | hmeets
  · exact hkept.serves (fun _ hm => hm) (by rw [hwhy]; exact .failed) hfair (.inl ⟨why, hwhy⟩)
  · rw [at'] at hwhy
    cases hwhy
  · obtain ⟨mainloop, serving, joining, toSponsor, toJoiner, first, second⟩ := j
    dsimp only at *
    subst at'
    cases hmeets with
    | redeeming =>
      rcases hanswer with ⟨root, weight, hok, hlays⟩ | ⟨why, herr⟩
      · rw [hok] at hfair ⊢
        exact hkept.serves (fun _ hm => hm) (.welcome hlays) hfair (.inr (.inr (.welcoming weight root)))
      · rw [herr] at hfair ⊢
        exact hkept.serves (fun _ hm => hm) (.refused _) hfair (.inr (.inl ⟨_, rfl⟩))
    | admitted past => exact past.elim
    | checking past => exact past.elim

theorem Kept.welcomes (h : Kept W p j) (pinned : p.invite.root = W.genesis) {message : Message}
    {frames : List Message} (clock : StoredAt)
    (at' : j.joining = .awaitsWelcome) (front : j.toJoiner = message :: frames) :
    Kept W p { j with joining := readWelcome p.invite clock message.received, toJoiner := frames } := by
  obtain ⟨mainloop, serving, joining, toSponsor, toJoiner, first, second⟩ := j
  have hstands := h.stands
  have hheard := h.heard
  have hmeets := h.meets
  dsimp only at at' front hstands hheard hmeets
  subst at' front
  cases hheard with
  | refused why => exact h.failed (show (JoinError.refused why).Fair from trivial) []
  | @welcome root hlays =>
    obtain ⟨core, hread, hfull, honly⟩ := hlays.readWelcome pinned clock
    have hstored : mainloop.core.storage.Stored W.genesis := h.full.coherent.base_stored
    rw [hread]
    refine ⟨h.full, h.hands, h.asks, ?_, .pulling trivial, ?_, h.fair⟩
    · cases hstands with
      | awaitsWelcome unopened before =>
        refine .pulls ⟨hfull, fun d hd => ?_⟩ (fun x hx => ?_) before
        · rw [honly d hd]
          exact hstored
        · dsimp only at hx
          rw [unopened] at hx
          cases hx
    · rcases hmeets with ⟨why, hwhy⟩ | hfailed | hmeets
      · cases hwhy
      · exact .inr (.inl hfailed)
      · cases hmeets with
        | welcoming weight => exact .inr (.inr (.serving (Joining.pulling_pulls core) weight))
  | admitted pulling => exact pulling.elim
  | rejected pulling => exact pulling.elim

/-! ### The pulls -/

/-- A session is served from the head it is opened at. -/
theorem Draws.opening {core : Core} (h : Draws W there core) (hfull : there.Full W) :
    ((Exchange.opening core.head there.head).pull core there).Honest False W
    (Exchange.opening core.head there.head).head :=
  ⟨h.full, hfull, Pull.opening_talks core there core.head⟩

/-- A step of it brings the joiner what the sponsor has. -/
theorem Draws.talks [Encoding] {core : Core} (h : Draws W there core) {x : Exchange} {q : Pull}
    (honest : (x.pull core there).Honest False W x.head) (step : Pull.Step x.head (x.pull core there) q) :
    Draws W there q.here ∧ ((x.went q).pull q.here there).Honest False W (x.went q).head := by
  have hhonest := honest.step step
  have hthere : q.there = there := step.there_eq
  refine ⟨⟨hhonest.here, fun d hd => (honest.step_gained step hd).elim (h.drawn d) id⟩, ?_⟩
  rw [← hthere]
  exact hhonest

/-- The joiner goes on between the `Welcome` and the `Admitted`. -/
theorem Kept.pulling (h : Kept W p j) (hpulling : j.joining.Pulling) (hpulling' : joining'.Pulling)
    (stands : Stands W p j.mainloop.core first second joining') :
      Kept W p { j with joining := joining', first, second } := by
  refine ⟨h.full, h.hands, h.asks, stands, h.heard.pulling_congr hpulling hpulling', ?_, h.fair⟩
  rcases h.meets with ⟨why, hwhy⟩ | hfailed | hmeets
  · rw [hwhy] at hpulling
    exact hpulling.elim
  · exact .inr (.inl hfailed)
  · exact .inr (.inr (hmeets.pulling_congr hpulling hpulling'))

theorem Kept.opens (h : Kept W p j) {core : Core} (pulling : j.joining = .pulls core) :
    Kept W p { j with first := some (.opening core.head j.mainloop.core.head) } := by
  obtain ⟨mainloop, serving, joining, toSponsor, toJoiner, first, second⟩ := j
  have hstands := h.stands
  have hfull := h.full
  dsimp only at pulling hstands hfull ⊢
  subst pulling
  cases hstands with
  | pulls draws honest before =>
    refine h.pulling (Joining.pulling_pulls core) (Joining.pulling_pulls core) (.pulls draws (fun x hx => ?_) before)
    obtain rfl := Option.some.inj hx
    exact draws.opening hfull

theorem Kept.talks [Encoding] (h : Kept W p j) {core : Core} {x : Exchange} {q : Pull}
    (pulling : j.joining = .pulls core)
    (underway : j.first = some x) (step : Pull.Step x.head (x.pull core j.mainloop.core) q) :
    Kept W p { j with joining := .pulls q.here, first := some (x.went q) } := by
  obtain ⟨mainloop, serving, joining, toSponsor, toJoiner, first, second⟩ := j
  have hstands := h.stands
  dsimp only at pulling underway step hstands ⊢
  subst pulling
  cases hstands with
  | pulls draws honest before =>
    obtain ⟨hdraws, hhonest⟩ := draws.talks (honest x underway) step
    refine h.pulling (Joining.pulling_pulls core) (Joining.pulling_pulls q.here)
      (.pulls hdraws (fun y hy => ?_) before)
    obtain rfl := Option.some.inj hy
    exact hhonest

theorem Kept.lands (h : Kept W p j) {core : Core} {x : Exchange} {outcome : PullOutcome}
    (pulling : j.joining = .pulls core) (underway : j.first = some x) (done : x.puller.pending = [.done outcome]) :
    Kept W p { j with joining := landed core outcome } := by
  obtain ⟨mainloop, serving, joining, toSponsor, toJoiner, first, second⟩ := j
  have hstands := h.stands
  dsimp only at pulling underway hstands ⊢
  subst pulling
  cases hstands with
  | pulls draws honest before =>
    obtain ⟨hne, hparted⟩ := served_of_landed (honest x underway) done
    have hlanded : landed core outcome = .awaitsAdmitted core := by
      cases outcome with
      | noCommonHistory => exact absurd rfl hne
      | synced => rfl
      | alreadyCurrent => rfl
    rw [hlanded]
    exact h.pulling (Joining.pulling_pulls core) (show (Joining.awaitsAdmitted core).Pulling from trivial)
      (.awaitsAdmitted draws ⟨x, underway, hparted⟩ before)

/-! ### The admission -/

theorem Kept.served (h : Kept W p j) {key : PublicKey} {weight : UInt32} {x : Exchange}
    (at' : j.serving = .serves key weight)
    (underway : j.first = some x) : Kept W p { j with serving := .admits key weight } := by
  refine h.serves (fun _ hm => hm) h.heard (fun why hwhy => ?_) ?_
  · cases hwhy
  rcases h.meets with hfailed | ⟨why, hwhy⟩ | hmeets
  · exact .inl hfailed
  · rw [at'] at hwhy
    cases hwhy
  · obtain ⟨mainloop, serving, joining, toSponsor, toJoiner, first, second⟩ := j
    have hstands := h.stands
    dsimp only at at' underway hmeets hstands ⊢
    subst at'
    cases hmeets with
    | welcoming weight root =>
      cases hstands with
      | awaitsWelcome unopened before =>
        rw [unopened] at underway
        cases underway
    | serving pulling weight => exact .inr (.inr (.admitting pulling weight))
    | admitted past => exact past.elim
    | checking past => exact past.elim

/-- Beside a joiner that failed the task may go on by itself. -/
theorem Kept.gone (h : Kept W p j) {why : JoinError} (gone : j.joining = .failed why) {serving : Serving}
    (fair : ∀ why, serving = .failed why → why.Fair) : Kept W p { j with serving } :=
  h.serves (fun _ hm => hm) h.heard fair (.inl ⟨why, gone⟩)

theorem Kept.admits [AddrText] (h : Kept W p j)
    (signed : ∀ e e', p.sponsor.sign e = .ok e' → e'.toSignedPortion ∈ W.contents)
    {key : PublicKey} {weight : UInt32} (at' : j.serving = .admits key weight) : Kept W p { j with
      mainloop := { j.mainloop with core := (p.admission j.mainloop.core key weight).2 }
      serving := (answered key (p.admission j.mainloop.core key weight).1).1
      toJoiner := j.toJoiner ++ (answered key (p.admission j.mainloop.core key weight).1).2 } := by
  have hkept :
      Kept W p { j with mainloop := { j.mainloop with core := (p.admission j.mainloop.core key weight).2 } } :=
    h.elsewhere (Parties.admission_moves signed _ _ _)
  have hanswer := Parties.admission_cases h.full signed key weight
  have hfair : ∀ why, (answered key (p.admission j.mainloop.core key weight).1).1 = .failed why → why.Fair := by
    intro why hwhy
    rcases hanswer with ⟨d, hok⟩ | ⟨err, herr⟩
    · rw [hok] at hwhy
      cases hwhy
    · rw [herr] at hwhy
      cases hwhy
      trivial
  rcases h.meets with ⟨why, hwhy⟩ | ⟨why, hwhy⟩ | hmeets
  · exact hkept.serves (fun _ hm => hm) (by rw [hwhy]; exact .failed) hfair (.inl ⟨why, hwhy⟩)
  · rw [at'] at hwhy
    cases hwhy
  · obtain ⟨mainloop, serving, joining, toSponsor, toJoiner, first, second⟩ := j
    dsimp only at *
    subst at'
    cases hmeets with
    | admitting pulling =>
      rcases hanswer with ⟨d, hok⟩ | ⟨err, herr⟩
      · rw [hok] at hfair ⊢
        exact hkept.serves (fun _ hm => hm) (.admitted pulling d) hfair
          (.inr (.inr (.admitted (show (Serving.servesAgain p.joiner.publicKey.id).Past from trivial) pulling d)))
      · rw [herr] at hfair ⊢
        exact hkept.serves (fun _ hm => hm) (.rejected pulling _) hfair (.inr (.inl ⟨_, rfl⟩))
    | admitted past => exact past.elim
    | checking past => exact past.elim

theorem Kept.hears_answer (h : Kept W p j) {core : Core} {message : Message} {frames : List Message}
    (at' : j.joining = .awaitsAdmitted core) (front : j.toJoiner = message :: frames) :
    Kept W p { j with joining := readAdmitted core message.received, toJoiner := frames } := by
  obtain ⟨mainloop, serving, joining, toSponsor, toJoiner, first, second⟩ := j
  have hstands := h.stands
  have hheard := h.heard
  have hmeets := h.meets
  dsimp only at at' front hstands hheard hmeets
  subst at' front
  cases hheard with
  | rejected pulling why => exact h.failed (show (JoinError.refused why).Fair from trivial) []
  | admitted pulling digest =>
    have hchecking : (Joining.pullsAgain core digest).Checking := trivial
    refine ⟨h.full, h.hands, h.asks, ?_, .checking hchecking, ?_, h.fair⟩
    · cases hstands with
      | awaitsAdmitted draws parted before =>
        refine .pullsAgain draws fun x hx => ?_
        dsimp only at hx
        rw [before] at hx
        cases hx
    · rcases hmeets with ⟨why, hwhy⟩ | hfailed | hmeets
      · cases hwhy
      · exact .inr (.inl hfailed)
      · cases hmeets with
        | admitted past => exact .inr (.inr (.checking past hchecking))

/-! ### The second pull -/

/-- The joiner goes on after the `Admitted`. -/
theorem Kept.checking (h : Kept W p j) (hchecking : j.joining.Checking) (hchecking' : joining'.Checking)
    (stands : Stands W p j.mainloop.core first second joining') :
      Kept W p { j with joining := joining', first, second } := by
  refine ⟨h.full, h.hands, h.asks, stands, h.heard.checking_congr hchecking hchecking', ?_, h.fair⟩
  rcases h.meets with ⟨why, hwhy⟩ | hfailed | hmeets
  · rw [hwhy] at hchecking
    exact hchecking.elim
  · exact .inr (.inl hfailed)
  · exact .inr (.inr (hmeets.checking_congr hchecking hchecking'))

theorem Kept.opensAgain (h : Kept W p j) {core : Core} {admitted : EnvelopeDigest}
    (pulling : j.joining = .pullsAgain core admitted) :
    Kept W p { j with second := some (.opening core.head j.mainloop.core.head) } := by
  obtain ⟨mainloop, serving, joining, toSponsor, toJoiner, first, second⟩ := j
  have hstands := h.stands
  have hfull := h.full
  dsimp only at pulling hstands hfull ⊢
  subst pulling
  cases hstands with
  | pullsAgain draws honest =>
    have hchecking := Joining.checking_pullsAgain core admitted
    refine h.checking hchecking hchecking (.pullsAgain draws fun x hx => ?_)
    obtain rfl := Option.some.inj hx
    exact draws.opening hfull

theorem Kept.talksAgain [Encoding] (h : Kept W p j) {core : Core} {admitted : EnvelopeDigest}
    {x : Exchange} {q : Pull} (pulling : j.joining = .pullsAgain core admitted) (underway : j.second = some x)
    (step : Pull.Step x.head (x.pull core j.mainloop.core) q) :
    Kept W p { j with joining := .pullsAgain q.here admitted, second := some (x.went q) } := by
  obtain ⟨mainloop, serving, joining, toSponsor, toJoiner, first, second⟩ := j
  have hstands := h.stands
  dsimp only at pulling underway step hstands ⊢
  subst pulling
  cases hstands with
  | pullsAgain draws honest =>
    obtain ⟨hdraws, hhonest⟩ := draws.talks (honest x underway) step
    refine h.checking (Joining.checking_pullsAgain core admitted) (Joining.checking_pullsAgain q.here admitted)
      (.pullsAgain hdraws fun y hy => ?_)
    obtain rfl := Option.some.inj hy
    exact hhonest

theorem Kept.landsAgain (h : Kept W p j) {core : Core} {admitted : EnvelopeDigest} {x : Exchange}
    {outcome : PullOutcome} (pulling : j.joining = .pullsAgain core admitted) (underway : j.second = some x)
    (done : x.puller.pending = [.done outcome]) :
    Kept W p { j with joining := landedAgain p.invite p.joiner core admitted outcome } := by
  obtain ⟨mainloop, serving, joining, toSponsor, toJoiner, first, second⟩ := j
  have hstands := h.stands
  dsimp only at pulling underway hstands ⊢
  subst pulling
  cases hstands with
  | pullsAgain draws honest =>
    obtain ⟨hne, hparted⟩ := served_of_landed (honest x underway) done
    cases hcheck : checkAdmitted p.invite p.joiner core admitted with
    | error why =>
      have hlanded : landedAgain p.invite p.joiner core admitted outcome = .failed why := by
        cases outcome with
        | noCommonHistory => exact absurd rfl hne
        | synced => simp only [landedAgain, hcheck]
        | alreadyCurrent => simp only [landedAgain, hcheck]
      rw [hlanded]
      exact h.failed (fair_of_checkAdmitted draws.full hcheck) toJoiner
    | ok =>
      have hlanded : landedAgain p.invite p.joiner core admitted outcome = .joined core admitted := by
        cases outcome with
        | noCommonHistory => exact absurd rfl hne
        | synced => simp only [landedAgain, hcheck]
        | alreadyCurrent => simp only [landedAgain, hcheck]
      rw [hlanded]
      exact h.checking (Joining.checking_pullsAgain core admitted)
        (show (Joining.joined core admitted).Checking from trivial)
        (.joined draws ⟨x, underway, hparted⟩ hcheck)

/-- The task goes on once the admission is done. -/
theorem Kept.past (h : Kept W p j) (hpast : j.serving.Past) (hpast' : serving.Past) :
    Kept W p { j with serving } := by
  refine h.serves (fun _ hm => hm) h.heard (fun why hwhy => ?_) ?_
  · rw [hwhy] at hpast'
    exact hpast'.elim
  · rcases h.meets with hfailed | ⟨why, hwhy⟩ | hmeets
    · exact .inl hfailed
    · rw [hwhy] at hpast
      exact hpast.elim
    · exact .inr (.inr (hmeets.past_congr hpast hpast'))

end Work

/-! ## Runs -/

section Runs

variable [Encoding] [AddrText]

theorem Kept.work (h : Kept W p j) (pinned : p.invite.root = W.genesis)
    (signed : ∀ e e', p.sponsor.sign e = .ok e' → e'.toSignedPortion ∈ W.contents) (work : j.Work p j') :
      Kept W p j' := by
  have hnone : ∀ {core x why}, j.joining = .pulls core → j.first = some x →
    ¬ PullerFails (x.pull core j.mainloop.core) why ∧
      ¬ ServerFails (x.pull core j.mainloop.core) why := by
    intro core x why pulling underway
    have hhonest := h.stands.first_of pulling underway
    exact ⟨not_pullerFails hhonest why, not_serverFails hhonest why⟩
  have hagain : ∀ {core admitted x why}, j.joining = .pullsAgain core admitted → j.second = some x →
      ¬ PullerFails (x.pull core j.mainloop.core) why ∧ ¬ ServerFails (x.pull core j.mainloop.core) why := by
    intro core admitted x why pulling underway
    have hhonest := h.stands.second_of pulling underway
    exact ⟨not_pullerFails hhonest why, not_serverFails hhonest why⟩
  cases work with
  | outdated => exact h.failed (show (JoinError.inviteVersion p.invite.version).Fair from trivial) j.toJoiner
  | asks at' => exact h.asks_welcome at'
  | reads at' front => exact h.reads at' front
  | redeems at' => exact h.redeems at'
  | welcomes clock at' front => exact h.welcomes pinned clock at' front
  | opens pulling => exact h.opens pulling
  | talks pulling underway step => exact h.talks pulling underway step
  | pullFails pulling underway fails => exact absurd fails (hnone pulling underway).1
  | lands pulling underway done => exact h.lands pulling underway done
  | serveFails pulling _ underway fails => exact absurd fails (hnone pulling underway).2
  | served at' underway => exact h.served at' underway
  | admits at' => exact h.admits signed at'
  | hears at' front => exact h.hears_answer at' front
  | opensAgain pulling => exact h.opensAgain pulling
  | talksAgain pulling underway step => exact h.talksAgain pulling underway step
  | pullFailsAgain pulling underway fails => exact absurd fails (hagain pulling underway).1
  | landsAgain pulling underway done => exact h.landsAgain pulling underway done
  | serveFailsAgain pulling _ underway fails => exact absurd fails (hagain pulling underway).2
  | @servedAgain node x at' =>
    exact h.past (by rw [at']; trivial) (show (Serving.awaitsEnd node).Past from trivial)
  | @ends core admitted node _ at' =>
    exact h.past (by rw [at']; trivial) (show (Serving.done node).Past from trivial)

theorem Kept.step (h : Kept W p j) (pinned : p.invite.root = W.genesis)
    (signed : ∀ e e', p.sponsor.sign e = .ok e' → e'.toSignedPortion ∈ W.contents) (step : j.Step W.contents p j') :
      Kept W p j' := by
  cases step with
  | work work => exact h.work pinned signed work
  | elsewhere move => exact h.elsewhere (.single move)
  | joinerLost => exact h.failed (show JoinError.lost.Fair from trivial) j.toJoiner
  | sponsorLost =>
    refine h.serves (fun _ hm => hm) h.heard (fun why hwhy => ?_) (.inr (.inl ⟨_, rfl⟩))
    cases hwhy
    trivial
  | closed gone => exact h.gone gone nofun
  | closedAgain gone => exact h.gone gone nofun
  | ended gone => exact h.gone gone nofun

theorem Join.Runs.kept {mainloop : Sponsor} (run : Join.Runs W.contents p mainloop j) (hfull : mainloop.core.Full W)
    (hands : Hands W mainloop.core) (pinned : p.invite.root = W.genesis)
    (signed : ∀ e e', p.sponsor.sign e = .ok e' → e'.toSignedPortion ∈ W.contents) : Kept W p j := by
  induction run with
  | started => exact ⟨hfull, hands, fun _ hm => absurd hm List.not_mem_nil, .starts rfl rfl, .starts,
      .inr (.inr .connected), nofun⟩
  | step _ step ih => exact ih.step pinned signed step

/-- Whatever else the sponsor's mainloop inserts, and wherever the connection is lost: neither side sees the
other break the protocol, and no pull fails. What the joiner stands on is the root its invite pinned, with
nothing in its log the sponsor does not have; and once it has joined, the admission it was told of is on its
chain, which trusts its sponsor and itself. -/
theorem Join.Runs.never_breaks {contents : Set SignedPortion} (laws : DigestLaws contents) {start : Envelope}
    (content : start.toSignedPortion ∈ contents)
    (signed : ∀ e e', p.sponsor.sign e = .ok e' → e'.toSignedPortion ∈ contents) {mainloop : Sponsor}
    (grown : mainloop.core.Grown contents start) (pinned : p.invite.root = mainloop.core.root)
    (run : Join.Runs contents p mainloop j) :
    (∀ why, j.joining = .failed why → why.Fair) ∧ (∀ why, j.serving = .failed why → why.Fair) ∧
      (∀ core, j.joining.core = some core → core.root = p.invite.root ∧
        Tip core.storage.parent core.storage.rank p.invite.root core.head ∧
          ∀ d, core.storage.Stored d → j.mainloop.core.storage.Stored d) ∧
        ∀ core admitted, j.joining = .joined core admitted → Desc core.storage.parent admitted core.head ∧
          j.mainloop.core.storage.Stored admitted ∧ ∃ v, core.storage.versions[core.head]? = some v ∧
            (trustedIn v).contains p.invite.sponsor = true ∧ (trustedIn v).contains p.joiner.keyId = true := by
  obtain ⟨W, rfl, hfull⟩ := grown.exists_world laws content
  have hstart := hfull _ grown
  have hroot : p.invite.root = W.genesis := pinned.trans (hstart.oldest.trans hstart.root)
  have h := run.kept hstart (hands_of_grown content hfull grown) hroot signed
  refine ⟨fun why hwhy => ?_, h.fair, fun core hcore => ?_, fun core admitted hjoined => ?_⟩
  · have hstands := h.stands
    rw [hwhy] at hstands
    cases hstands with
    | failed fair => exact fair
  · have hdraws := h.stands.draws hcore
    rw [hroot]
    exact ⟨hdraws.full.oldest.trans hdraws.full.root, hdraws.full.tip, hdraws.drawn⟩
  · have hstands := h.stands
    rw [hjoined] at hstands
    cases hstands with
    | joined draws parted checked =>
      obtain ⟨v, hv, hpath, hsponsor, hkeys⟩ := checkAdmitted_eq_ok draws.full checked
      exact ⟨hpath, draws.drawn _ (draws.full.stored_of_desc hpath), v, hv, hsponsor, hkeys⟩

omit [Encoding] [AddrText] in
theorem readWelcome_cases (invite : Invited) (clock : StoredAt) (message : Message) :
    (∃ core, readWelcome invite clock message = .pulls core) ∨
      ∃ why, readWelcome invite clock message = .failed why := by
  unfold readWelcome
  repeat' split
  all_goals first | exact .inl ⟨_, rfl⟩ | exact .inr ⟨_, rfl⟩

omit [Encoding] [AddrText] in
theorem readWelcome_of_core {invite : Invited} {clock : StoredAt} {message : Message} {core : Core}
    (h : (readWelcome invite clock message).core = some core) : readWelcome invite clock message = .pulls core := by
  rcases readWelcome_cases invite clock message with ⟨core', hpulls⟩ | ⟨why, hwhy⟩
  · rw [hpulls] at h ⊢
    exact congrArg Joining.pulls (Option.some.inj h)
  · rw [hwhy] at h
    cases h

/-- A good token and the pinned root get a joiner as far as its first pull. -/
theorem Join.Runs.exists_opens (contents : Set SignedPortion) (p : Parties) (mainloop : Sponsor)
    (current : p.invite.version = INVITE_VERSION)
    {w : Welcomed} (redeemed : (mainloop.redeemInvite p.invite.token).1 = .ok w) {core : Core}
    (pulls : readWelcome p.invite 0 (.received (.welcome w.root w.state)) = .pulls core) :
    Join.Runs contents p mainloop ⟨(mainloop.redeemInvite p.invite.token).2, .serves p.joiner.publicKey w.weight,
      .pulls core, [], [], some (.opening core.head (mainloop.redeemInvite p.invite.token).2.core.head), none⟩ := by
  have run₁ : Join.Runs contents p mainloop _ := .step .started (.work (.asks rfl current))
  have run₂ := run₁.step (.work (.reads rfl rfl))
  have run₃ := run₂.step (.work (.redeems rfl))
  have hanswer : welcomed p.joiner.publicKey (mainloop.redeemInvite p.invite.token).1 =
      (.serves p.joiner.publicKey w.weight, [.welcome w.root w.state]) := by
    rw [redeemed]
    rfl
  have run₃ : Join.Runs contents p mainloop ⟨(mainloop.redeemInvite p.invite.token).2,
      (welcomed p.joiner.publicKey (mainloop.redeemInvite p.invite.token).1).1, .awaitsWelcome, [],
      (welcomed p.joiner.publicKey (mainloop.redeemInvite p.invite.token).1).2, none, none⟩ := run₃
  rw [hanswer] at run₃
  have run₄ := run₃.step (.work (.welcomes 0 rfl rfl))
  dsimp only at run₄
  rw [pulls] at run₄
  exact run₄.step (.work (.opens rfl rfl rfl))

omit [AddrText] in
/-- A session is where its steps left it. -/
theorem Exchange.step_went {core there : Core} {x : Exchange} {q r : Pull}
    (steps : Relation.ReflTransGen (Pull.Step x.head) (x.pull core there) q) (step : Pull.Step x.head q r) :
    Pull.Step (x.went q).head ((x.went q).pull q.here there) r := by
  have hpull : (x.went q).pull q.here there = q := by
    rw [← show q.there = there from Pull.there_eq_of_steps steps]
    rfl
  rw [hpull]
  exact step

/-- The first pull goes on. -/
theorem Join.Runs.talks {contents : Set SignedPortion} {mainloop : Sponsor} (run : Join.Runs contents p mainloop j)
    {core : Core} {x : Exchange} {q : Pull} (pulling : j.joining = .pulls core) (underway : j.first = some x)
    (steps : Relation.ReflTransGen (Pull.Step x.head) (x.pull core j.mainloop.core) q) :
    Join.Runs contents p mainloop { j with joining := .pulls q.here, first := some (x.went q) } := by
  induction steps with
  | refl =>
    obtain ⟨sponsor, serving, joining, toSponsor, toJoiner, first, second⟩ := j
    dsimp only at pulling underway
    subst pulling underway
    exact run
  | @tail q r steps step ih =>
    exact ih.step (.work (.talks (x := x.went q) rfl rfl (Exchange.step_went steps step)))

/-- And so does the second. -/
theorem Join.Runs.talksAgain {contents : Set SignedPortion} {mainloop : Sponsor} (run : Join.Runs contents p mainloop j)
    {core : Core} {admitted : EnvelopeDigest} {x : Exchange} {q : Pull} (pulling : j.joining = .pullsAgain core admitted)
    (underway : j.second = some x) (steps : Relation.ReflTransGen (Pull.Step x.head) (x.pull core j.mainloop.core) q) :
    Join.Runs contents p mainloop { j with joining := .pullsAgain q.here admitted, second := some (x.went q) } := by
  induction steps with
  | refl =>
    obtain ⟨sponsor, serving, joining, toSponsor, toJoiner, first, second⟩ := j
    dsimp only at pulling underway
    subst pulling underway
    exact run
  | @tail q r steps step ih =>
    exact ih.step (.work (.talksAgain (x := x.went q) rfl rfl (Exchange.step_went steps step)))

/-- A pull both ends of which are done, with history in common. -/
structure Over (p : Pull) : Prop where
  pulled : ∃ outcome, p.puller.pending = [.done outcome] ∧ outcome ≠ .noCommonHistory
  served : (∃ outcome, p.server.pending = [.done outcome]) ∨ p.server.pending = [] ∧ p.toServer = []

/-- Where nothing comes between and the ledger takes the admission, a good token gets the joiner in. -/
theorem Join.Runs.exists_joined (contents : Set SignedPortion) (p : Parties) (mainloop : Sponsor)
    (current : p.invite.version = INVITE_VERSION) {w : Welcomed} {σ : Sponsor}
    (redeemed : mainloop.redeemInvite p.invite.token = (.ok w, σ)) {core : Core}
    (pulls : readWelcome p.invite 0 (.received (.welcome w.root w.state)) = .pulls core) {first : Pull}
    (steps : Relation.ReflTransGen (Pull.Step σ.core.head) ((Exchange.opening core.head σ.core.head).pull core σ.core) first)
    (ended : Over first) {d : EnvelopeDigest} {there : Core}
    (admission : p.admission σ.core p.joiner.publicKey w.weight = (.ok d, there)) {second : Pull}
    (steps' : Relation.ReflTransGen (Pull.Step there.head)
      ((Exchange.opening first.here.head there.head).pull first.here there) second)
    (ended' : Over second) (checked : checkAdmitted p.invite p.joiner second.here d = .ok ()) :
    ∃ j, Join.Runs contents p mainloop j ∧ j.mainloop.core = there ∧ j.joining = .joined second.here d ∧
      j.serving = .done p.joiner.publicKey.id := by
  have run₁ := Join.Runs.exists_opens contents p mainloop current (congrArg Prod.fst redeemed) pulls
  rw [redeemed] at run₁
  have run₂ := run₁.talks rfl rfl steps
  obtain ⟨⟨outcome, hdone, hcommon⟩, hserved⟩ := ended
  have hlanded : landed first.here outcome = .awaitsAdmitted first.here := by
    cases outcome with
    | noCommonHistory => exact absurd rfl hcommon
    | synced => rfl
    | alreadyCurrent => rfl
  have run₃ := run₂.step (.work (.lands rfl rfl hdone))
  rw [hlanded] at run₃
  have run₄ := run₃.step (.work (.served rfl rfl (hserved.imp id fun hread => ⟨nofun, hread⟩)))
  have run₅ := run₄.step (.work (.admits rfl))
  dsimp only at run₅
  rw [admission] at run₅
  have run₆ := run₅.step (.work (.hears rfl rfl))
  have run₇ := run₆.step (.work (.opensAgain rfl rfl rfl))
  have run₈ := run₇.talksAgain rfl rfl steps'
  obtain ⟨⟨outcome', hdone', hcommon'⟩, hserved'⟩ := ended'
  have hlanded' : landedAgain p.invite p.joiner second.here d outcome' = .joined second.here d := by
    unfold landedAgain
    rw [checked]
    cases outcome' with
    | noCommonHistory => exact absurd rfl hcommon'
    | synced => rfl
    | alreadyCurrent => rfl
  have run₉ := run₈.step (.work (.landsAgain rfl rfl hdone'))
  rw [hlanded'] at run₉
  have run₁₀ := run₉.step (.work (.servedAgain rfl rfl (hserved'.imp id fun hread => ⟨nofun, hread⟩)))
  have run₁₁ := run₁₀.step (.work (.ends rfl rfl))
  exact ⟨_, run₁₁, rfl, rfl, rfl⟩

end Runs

end Kept

end IrohLotus.Lotusd.Bootstrap

/-! ## The samples -/

namespace IrohLotus.Lotusd.Bootstrap

open Std Outcome Forest IrohLotus.Wire IrohLotus.Wire.Founded IrohLotus.Storage IrohLotus.State IrohLotus.Sync

theorem grown_foundedCore : foundedCore.Grown Set.univ founded := by
  have hrun : (Chain.init founded (MemStorage.empty 0)).1 = .ok ⟨foundedDigest, ⟨foundedDigest⟩⟩ := by decide +kernel
  rw [foundedCore]
  exact .init (Prod.ext hrun (by rw [foundedStore]))

/-- The founder, with an invite out. -/
def inviting : Sponsor := ⟨foundedCore, [⟨⟨7⟩, 1, 60, foundedDigest⟩], 0, [], []⟩

/-- The founder and its joiner. -/
def foundedParties : Parties where
  sponsor := founderKeys
  joiner := joinerKeys
  invite := ⟨⟨foundedDigest, ⟨7⟩⟩, INVITE_VERSION, founderKeys.keyId⟩
  remote := joinerEndpoint

/-- The joiner's first pull, which finds it has all there is. -/
def firstPull : Pull := ((Exchange.opening foundedDigest foundedDigest).pull foundedCore foundedCore).drive foundedDigest 10

/-- The founder's core once it admitted the joiner. -/
def admittedCore : Core := (foundedParties.admission foundedCore joinerKeys.publicKey 1).2

/-- The joiner's second pull, which brings it its own admission. -/
def secondPull : Pull :=
  ((Exchange.opening firstPull.here.head joinedDigest).pull firstPull.here admittedCore).drive joinedDigest 30

theorem over_firstPull : Over firstPull where
  pulled := ⟨.alreadyCurrent, by decide +kernel, nofun⟩
  served := .inr (by decide +kernel)

/-- It ends at the founder's head, where the joiner finds itself admitted. -/
theorem ends_secondPull : secondPull.puller.pending = [.done (.synced joinedDigest 2)] ∧
    secondPull.server.pending = [.done (.served joinedDigest 2)] ∧ secondPull.here.head = joinedDigest ∧
    (checkAdmitted foundedParties.invite foundedParties.joiner secondPull.here joinedDigest).toOption = some () := by
  decide +kernel

/-- The root the founder hands over is the one its joiner starts from. -/
theorem pulls_foundedCore : ∃ w σ, inviting.redeemInvite ⟨7⟩ = (.ok w, σ) ∧ σ.core = foundedCore ∧ w.weight = 1 ∧
    readWelcome foundedParties.invite 0 (.received (.welcome w.root w.state)) = .pulls foundedCore := by
  have hreads : ((inviting.redeemInvite ⟨7⟩).1.toOption.bind fun w =>
      (readWelcome foundedParties.invite 0 (Message.received (.welcome w.root w.state))).core.map fun core =>
        (w.weight, core.chain, core.storage, core.oldest)) =
          some (1, foundedCore.chain, foundedCore.storage, foundedCore.oldest) := by
    decide +kernel
  obtain ⟨w, hw, hread⟩ := Option.bind_eq_some_iff.1 hreads
  obtain ⟨core, hcore, hsame⟩ := Option.map_eq_some_iff.1 hread
  obtain ⟨hweight, hfounded⟩ : w.weight = 1 ∧ core = foundedCore := by
    obtain ⟨chain, storage, oldest⟩ := core
    simp only [Prod.mk.injEq] at hsame
    obtain ⟨hweight, hchain, hstorage, holdest⟩ := hsame
    exact ⟨hweight, by rw [hchain, hstorage, holdest]⟩
  have hcore' : (inviting.redeemInvite ⟨7⟩).2.core = foundedCore := by
    rw [Sponsor.redeemInvite_core, inviting]
  have hpulls : readWelcome foundedParties.invite 0 (.received (.welcome w.root w.state)) = .pulls foundedCore := by
    rw [← hfounded]
    exact readWelcome_of_core hcore
  generalize inviting.redeemInvite ⟨7⟩ = redeemed at hw hcore'
  obtain ⟨outcome, σ⟩ := redeemed
  exact ⟨w, σ, Prod.ext (except_of_toOption_some hw) rfl, hcore', hweight, hpulls⟩

/-- The founder admits its joiner, which ends at its head. -/
theorem joins_founded : ∃ j core, Join.Runs Set.univ foundedParties inviting j ∧ j.mainloop.core = admittedCore ∧
    j.joining = .joined core joinedDigest ∧ j.serving = .done joinerId ∧ core.head = joinedDigest := by
  obtain ⟨w, σ, hredeem, hcore, hweight, hpulls⟩ := pulls_foundedCore
  have hfounded : foundedCore.head = foundedDigest := by decide +kernel
  have hadmitted : foundedParties.admission foundedCore joinerKeys.publicKey 1 = (.ok joinedDigest, admittedCore) :=
    Prod.ext (except_of_toOption_some (by decide +kernel)) (by rw [admittedCore])
  have hthere : admittedCore.head = joinedDigest := by decide +kernel
  obtain ⟨hpulled, hserved, hhead, hchecked⟩ := ends_secondPull
  have hfirst : Relation.ReflTransGen (Pull.Step σ.core.head)
      ((Exchange.opening foundedCore.head σ.core.head).pull foundedCore σ.core) firstPull := by
    rw [hcore, hfounded]
    exact Pull.drive_steps 10 _
  have hsecond : Relation.ReflTransGen (Pull.Step admittedCore.head)
      ((Exchange.opening firstPull.here.head admittedCore.head).pull firstPull.here admittedCore) secondPull := by
    rw [hthere]
    exact Pull.drive_steps 30 _
  obtain ⟨j, run, hcore', hjoined, hdone⟩ := Join.Runs.exists_joined Set.univ foundedParties inviting rfl hredeem hpulls hfirst
    over_firstPull (by rw [hcore, hweight]; exact hadmitted) hsecond ⟨⟨_, hpulled, nofun⟩, .inl ⟨_, hserved⟩⟩
      (except_of_toOption_some hchecked)
  exact ⟨j, secondPull.here, run, hcore', hjoined, hdone, hhead⟩

/-- A joiner that was admitted stands on the founder's `Init`, on a chain that trusts them both. -/
theorem never_breaks_admitted : ∃ j core, Join.Runs Set.univ foundedParties inviting j ∧ j.joining = .joined core joinedDigest ∧
    core.root = foundedDigest ∧ (∀ d, core.storage.Stored d → j.mainloop.core.storage.Stored d) ∧
    Desc core.storage.parent joinedDigest core.head ∧ ∃ v, core.storage.versions[core.head]? = some v ∧
      (trustedIn v).contains founderId = true ∧ (trustedIn v).contains joinerId = true := by
  obtain ⟨j, core, run, -, hjoined, -⟩ := joins_founded
  obtain ⟨-, -, hstands, hadmitted⟩ := run.never_breaks founded_laws (Set.mem_univ _)
    (fun _ _ _ => Set.mem_univ _) grown_foundedCore rfl
  obtain ⟨hroot, -, hdrawn⟩ := hstands core (by rw [hjoined]; rfl)
  obtain ⟨hpath, -, v, hv, hsponsor, hjoiner⟩ := hadmitted core joinedDigest hjoined
  exact ⟨j, core, run, hjoined, hroot, hdrawn, hpath, v, hv, hsponsor, hjoiner⟩

end IrohLotus.Lotusd.Bootstrap
