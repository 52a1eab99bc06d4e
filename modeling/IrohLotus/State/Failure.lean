/-
A compaction that fails leaves a store that is not coherent: envelopes are gone whose versions are
still held, and the root itself may be gone. What later inserts do to such a store, and when they
find the head again: exactly when the cut is the root or one of its children, because otherwise the
walk from the old root can find nothing below it.
-/
import IrohLotus.State.Reach

namespace IrohLotus.State

open Std Outcome Forest IrohLotus.Wire IrohLotus.Storage

variable [Externals]

/-! ## What inserts do to any store -/

/-- The index mirrors the log, and the log keys envelopes of `contents` by their digests. -/
structure Sound (contents : Set SignedPortion) (s : MemStorage) : Prop where
  indexed : s.Indexed
  content : ∀ d e, s.envelope d = some e → e.toSignedPortion ∈ contents ∧ e.digest = .ok d

/-- The store `t` is `s` with envelopes and versions added. -/
structure Adds (contents : Set SignedPortion) (s t : MemStorage) : Prop where
  sound : Sound contents t
  log : s.LogGrows t
  versions : s.Grows t

section Adds

variable {contents : Set SignedPortion} {s t u : MemStorage} {e : Envelope} {d p : EnvelopeDigest}

theorem Adds.refl (h : Sound contents s) : Adds contents s s := ⟨h, fun _ _ he => he, fun _ _ hv => hv⟩

theorem Adds.trans (h : Adds contents s t) (h' : Adds contents t u) : Adds contents s u :=
  ⟨h'.sound, fun d e he => h'.log d e (h.log d e he), fun d v hv => h'.versions d v (h.versions d v hv)⟩

theorem Adds.install (h : Sound contents s) (hd : ¬ s.Held d) (v : Version) : Adds contents s (s.install d v) :=
  ⟨⟨h.indexed.install d v, h.content⟩, fun _ _ he => he, s.grows_install hd v⟩

theorem Adds.put (h : Sound contents s) (hd : s.envelope d = none) (content : e.toSignedPortion ∈ contents)
    (hde : e.digest = .ok d) : Adds contents s (s.putEnvelope d e) := by
  refine ⟨⟨h.indexed.putEnvelope fun e' he' => ?_, fun d' e' he' => ?_⟩, fun d' e' he' => ?_, fun d' v hv => ?_⟩
  · rw [hd] at he'; cases he'
  · rw [MemStorage.envelope_putEnvelope] at he'
    split at he'
    · rename_i heq
      cases he'; subst heq
      exact ⟨content, hde⟩
    · exact h.content d' e' he'
  · rw [MemStorage.envelope_putEnvelope, if_neg]
    · exact he'
    · rintro rfl; rw [hd] at he'; cases he'
  · rw [MemStorage.versions_putEnvelope]; exact hv

end Adds

namespace Chain

variable {contents : Set SignedPortion} {s : MemStorage} {e : Envelope} {d p : EnvelopeDigest}

/-- A version left behind by an envelope that is gone is taken as that of the envelope coming back. -/
theorem judge_dangling {ledger : Ledger} {status : VerificationStatus} (hd : s.Held d)
    (hver : ledger.verifyEnvelope s e = .ok status) :
    judge e p d false (some ledger) s = (.ok (some ⟨d⟩), s.putEnvelope d (e.setVerificationStatus status)) := by
  have hread : Action.read (fun s => (ledger.verifyEnvelope s e).mapErr Error.apply) s = (.ok status, s) := by
    rw [Action.read, hver]; rfl
  have hwrite : Action.write (E := Error) (fun s => pure (s.putEnvelope d (e.setVerificationStatus status))) s =
      (.ok (), s.putEnvelope d (e.setVerificationStatus status)) := rfl
  have hopen : Action.read (fun s => Ledger.open s d) (s.putEnvelope d (e.setVerificationStatus status)) =
      (.ok ⟨d⟩, s.putEnvelope d (e.setVerificationStatus status)) := by
    rw [Action.read, ledger_open_eq_ok (by obtain ⟨v, hv⟩ := hd; exact ⟨v, hv⟩)]
  unfold judge
  simp only
  rw [Action.bind_ok hread]
  simp only [pure_bind]
  rw [Action.bind_ok (read_held hd), if_pos rfl]
  simp only [Bool.not_false, Bool.true_and, Option.isSome_some, if_true]
  rw [Action.bind_ok hwrite, Action.bind_ok hopen]; rfl

theorem judge_dangling_orphan (hd : s.Held d) : judge e p d false none s = (.ok (some ⟨d⟩), s) := by
  have hopen : Action.read (fun s => Ledger.open s d) s = (.ok ⟨d⟩, s) := by
    rw [Action.read, ledger_open_eq_ok hd]
  unfold judge
  simp only [pure_bind]
  rw [Action.bind_ok (read_held hd), if_pos rfl]
  simp only [Option.isSome_none, Bool.and_false, Bool.false_eq_true, if_false]
  rw [Action.bind_ok hopen]; rfl

/-- Whatever the store, judging an envelope adds to it, and the trial it leaves stands on a version. -/
theorem judge_adds (h : Sound contents s) (content : e.toSignedPortion ∈ contents) (hd : e.digest = .ok d) :
    ∃ r t, judge e p d (s.envelope d).isSome (ledgerAt s p) s = (r, t) ∧ Adds contents s t ∧
      ((∃ err, r = .error (.error err)) ∨ ∃ trial, r = .ok trial ∧ ∀ ledger, trial = some ledger → ledger = ⟨d⟩ ∧ t.Held d) := by
  have hhead : ∀ {status head op}, (Ledger.mk p).checked s (e.setVerificationStatus status) = .ok (head, op) → head = d := by
    intro status head op hc
    have := (Ledger.checked_eq_ok hc).2.1
    rw [Envelope.digest_setVerificationStatus, hd] at this; exact (Except.ok.inj this).symm
  have hheldInstall : ∀ v : Version, (s.install d v).Held d := fun v =>
    ⟨v, by rw [MemStorage.versions_install, if_pos rfl]⟩
  cases henv : s.envelope d with
  | some e' =>
    rw [Option.isSome_some]
    by_cases hheld : s.Held d
    · exact ⟨_, s, judge_held hheld _, .refl h, .inr ⟨_, rfl, fun l hl => by cases hl; exact ⟨rfl, hheld⟩⟩⟩
    · by_cases hp : s.Held p
      · rw [ledgerAt_held hp]
        obtain ⟨v, hv⟩ := hp
        rcases apply_cases_at hv e with ⟨head, op, v', hc, -, happ⟩ | ⟨err, herr, -, happ⟩
        · obtain rfl : head = d := @hhead e.verificationStatus _ _ hc
          exact ⟨_, _, judge_stored_ok hheld happ, .install h hheld v',
            .inr ⟨_, rfl, fun l hl => by cases hl; exact ⟨rfl, hheldInstall v'⟩⟩⟩
        · exact ⟨_, s, judge_stored_error hheld herr happ, .refl h, .inr ⟨none, rfl, nofun⟩⟩
      · rw [ledgerAt_not_held hp]
        exact ⟨_, s, judge_stored_orphan hheld, .refl h, .inr ⟨none, rfl, nofun⟩⟩
  | none =>
    rw [Option.isSome_none]
    by_cases hp : s.Held p
    · rw [ledgerAt_held hp]
      obtain ⟨v, hv⟩ := hp
      have hret : Ledger.Judged ((Ledger.mk p).verifyEnvelope s e) := Ledger.returns_verifyEnvelope hv e
      rcases hver : (Ledger.mk p).verifyEnvelope s e with (err | _ | _) | status
      · exact ⟨_, s, judge_new_unverified hver, .refl h, .inl ⟨_, rfl⟩⟩
      · rw [hver] at hret; exact hret.elim
      · rw [hver] at hret; exact hret.elim
      · by_cases hheld : s.Held d
        · refine ⟨_, _, judge_dangling hheld hver, .put h henv content hd, .inr ⟨_, rfl, fun l hl => ?_⟩⟩
          cases hl
          obtain ⟨w, hw⟩ := hheld
          exact ⟨rfl, w, by rw [MemStorage.versions_putEnvelope]; exact hw⟩
        · rcases apply_cases_at hv (e.setVerificationStatus status) with
            ⟨head, op, v', hc, -, happ⟩ | ⟨err, herr, -, happ⟩
          · obtain rfl := hhead hc
            have hadds := Adds.install h hheld v'
            refine ⟨_, _, judge_new_ok hheld hver happ, hadds.trans (.put hadds.sound henv content hd),
              .inr ⟨_, rfl, fun l hl => ?_⟩⟩
            cases hl
            obtain ⟨w, hw⟩ := hheldInstall v'
            exact ⟨rfl, w, by rw [MemStorage.versions_putEnvelope]; exact hw⟩
          · exact ⟨_, s, judge_new_error hheld hver herr happ, .refl h, .inl ⟨_, rfl⟩⟩
    · rw [ledgerAt_not_held hp]
      by_cases hheld : s.Held d
      · exact ⟨_, s, judge_dangling_orphan hheld, .refl h, .inr ⟨_, rfl, fun l hl => by cases hl; exact ⟨rfl, hheld⟩⟩⟩
      · exact ⟨_, s, judge_new_orphan hheld, .refl h, .inl ⟨_, rfl⟩⟩

/-- Judging any envelope of `contents` keeps `I`, and the trial it leaves stands on a version. -/
def JudgeKeeps (contents : Set SignedPortion) (I : MemStorage → Prop) : Prop :=
  ∀ {s : MemStorage} {e : Envelope} {p d : EnvelopeDigest}, I s → e.toSignedPortion ∈ contents → e.prev = some p →
    e.digest = .ok d → ∃ r t, judge e p d (s.envelope d).isSome (ledgerAt s p) s = (r, t) ∧ I t ∧
      ((∃ err, r = .error (.error err)) ∨ ∃ trial, r = .ok trial ∧ ∀ ledger, trial = some ledger → ledger = ⟨d⟩ ∧ t.Held d)

theorem JudgeKeeps.storeOne {I : MemStorage → Prop} (hkeep : JudgeKeeps contents I) {batch : Batch} (h : I s)
    (hf : Footed s batch) (content : e.toSignedPortion ∈ contents) :
    ∃ r t, storeOne batch e s = (r, t) ∧ I t ∧
      ((∃ err, r = .error (.error err)) ∨ ∃ batch', r = .ok batch' ∧ Footed t batch') := by
  cases hp : e.prev with
  | none => exact ⟨_, s, storeOne_init hp, h, .inl ⟨_, rfl⟩⟩
  | some p =>
    by_cases hc : Chains batch e
    · cases hd : e.digest with
      | error err => exact ⟨_, s, storeOne_wire hc hp hd, h, .inl ⟨_, rfl⟩⟩
      | ok d =>
        rw [storeOne_eq hf hc hp hd]
        obtain ⟨r, t, hj, ht, ⟨err, rfl⟩ | ⟨trial, rfl, htrial⟩⟩ := hkeep h content hp hd
        · exact ⟨_, t, Action.bind_error hj _, ht, .inl ⟨err, rfl⟩⟩
        · refine ⟨_, t, Action.bind_ok hj _, ht, .inr ⟨_, rfl, fun ledger hl => ?_⟩⟩
          obtain ⟨rfl, hheld⟩ := htrial ledger hl
          exact ⟨rfl, hheld⟩
    · obtain ⟨l, hl, hne⟩ : ∃ l, batch.last = some l ∧ e.prev ≠ some l := by
        unfold Chains at hc
        push Not at hc
        exact hc
      have hlp : l ≠ p := by rintro rfl; exact hne hp
      exact ⟨_, s, storeOne_mismatch hl hp hlp, h, .inl ⟨_, rfl⟩⟩

theorem JudgeKeeps.storeBatch {I : MemStorage → Prop} (hkeep : JudgeKeeps contents I) :
    ∀ {es : List Envelope} {batch : Batch} {s : MemStorage}, I s → Footed s batch →
    (∀ e ∈ es, e.toSignedPortion ∈ contents) → ∃ r t, storeBatch batch es s = (r, t) ∧ I t ∧
      ((∃ err, r = .error (.error err)) ∨ ∃ b, r = .ok b)
  | [], _, s, h, _, _ => ⟨_, s, rfl, h, .inr ⟨_, rfl⟩⟩
  | e :: es, batch, s, h, hf, content => by
    obtain ⟨r, t, hone, ht, ⟨err, rfl⟩ | ⟨batch', rfl, hf'⟩⟩ := hkeep.storeOne h hf (content e List.mem_cons_self)
    · exact ⟨_, t, Action.bind_error hone _, ht, .inl ⟨err, rfl⟩⟩
    · obtain ⟨r, u, hrest, hu, hr⟩ := hkeep.storeBatch ht hf' fun x hx => content x (List.mem_cons_of_mem _ hx)
      refine ⟨r, u, ?_, hu, hr⟩
      rw [Chain.storeBatch, Action.bind_ok hone]; exact hrest

theorem storeBatch_adds {es : List Envelope} {batch : Batch} (h : Sound contents s) (hf : Footed s batch)
    (content : ∀ e ∈ es, e.toSignedPortion ∈ contents) : ∃ r t, storeBatch batch es s = (r, t) ∧ Adds contents s t ∧
      ((∃ err, r = .error (.error err)) ∨ ∃ b, r = .ok b) := by
  have hkeep : JudgeKeeps contents (Adds contents s) := by
    intro u e p d hu he _ hd
    obtain ⟨r, t, hj, hadds, hr⟩ := judge_adds (p := p) hu.sound he hd
    exact ⟨r, t, hj, hu.trans hadds, hr⟩
  exact hkeep.storeBatch (.refl h) hf content

/-- A walk that fails removed at most an envelope without a version. -/
theorem walk_eq_error : ∀ {fuel : Nat} {x : EnvelopeDigest} {s u : MemStorage} {halt : Halt Error}, Sound contents s →
    s.Held x → walk fuel ⟨x⟩ s = (.error halt, u) → ∃ t, s.SameLog t ∧ s.Grows t ∧
      (u = t ∨ ∃ c, ¬ t.Held c ∧ u = t.removeEnvelope c)
  | 0, _, s, _, _, _, _, h => by
    cases h
    exact ⟨s, MemStorage.SameLog.refl, fun _ _ hv => hv, .inl rfl⟩
  | fuel + 1, x, s, u, halt, hs, hx, h => by
    rcases step_cases hs.indexed x with ⟨hn, hstep⟩ | ⟨c, e, hw, he, hcases⟩
    · rw [walk, Action.bind_ok hstep] at h; cases h
    · rcases hcases with ⟨hheld, hstep⟩ | ⟨hheld, hok, herr⟩
      · rw [walk, Action.bind_ok hstep] at h
        exact walk_eq_error hs hheld h
      · obtain ⟨v, hv⟩ := hx
        rcases apply_cases_at hv e with ⟨head, op, v', hc, -, happ⟩ | ⟨err, -, -, happ⟩
        · obtain rfl : c = head := by
            have := (Ledger.checked_eq_ok hc).2.1
            rw [(hs.content c e he).2] at this; exact Except.ok.inj this
          rw [walk, Action.bind_ok (hok _ _ happ)] at h
          have hadds := Adds.install hs hheld v'
          obtain ⟨t, hlog, hgrow, hu⟩ := walk_eq_error hadds.sound ⟨v', by rw [MemStorage.versions_install, if_pos rfl]⟩ h
          exact ⟨t, (s.sameLog_install c v').trans hlog, fun d w hw => hgrow d w (hadds.versions d w hw), hu⟩
        · obtain ⟨halt', t, hstep, ht⟩ := herr _ _ happ
          rw [walk, Action.bind_error hstep] at h
          cases h
          exact ⟨s, MemStorage.SameLog.refl, fun _ _ hv => hv, ht.imp_right fun ht => ⟨c, hheld, ht⟩⟩

end Chain

/-- What an insert leaves of any store: sound again, with every version, and with every envelope that
has one. -/
structure Retains (contents : Set SignedPortion) (s t : MemStorage) : Prop where
  sound : Sound contents t
  versions : s.Grows t
  log : ∀ d e, s.envelope d = some e → s.Held d → t.envelope d = some e

section Retains

variable {contents : Set SignedPortion} {s t u : MemStorage}

theorem Adds.retains (h : Adds contents s t) : Retains contents s t := ⟨h.sound, h.versions, fun d e he _ => h.log d e he⟩

theorem Retains.trans (h : Retains contents s t) (h' : Retains contents t u) : Retains contents s u :=
  ⟨h'.sound, fun d v hv => h'.versions d v (h.versions d v hv),
    fun d e he hd => h'.log d e (h.log d e he hd) (h.versions.held hd)⟩

theorem Sound.sameLog (h : Sound contents s) (hlog : s.SameLog t) : Sound contents t :=
  ⟨hlog.indexed h.indexed, by rw [hlog.envelope]; exact h.content⟩

theorem Retains.sameLog (h : Sound contents s) (hlog : s.SameLog t) (hgrow : s.Grows t) : Retains contents s t :=
  ⟨h.sameLog hlog, hgrow, fun d e he _ => by rw [hlog.envelope]; exact he⟩

theorem Retains.remove (h : Sound contents s) {c : EnvelopeDigest} (hc : ¬ s.Held c) :
    Retains contents s (s.removeEnvelope c) := by
  refine ⟨⟨h.indexed.removeEnvelope c, fun d e he => ?_⟩, fun d v hv => ?_, fun d e he hd => ?_⟩
  · rw [MemStorage.envelope_removeEnvelope] at he
    split at he
    · cases he
    · exact h.content d e he
  · rw [MemStorage.versions_removeEnvelope]; exact hv
  · rw [MemStorage.envelope_removeEnvelope, if_neg]
    · exact he
    · rintro rfl; exact hc hd

/-- `insert_batch` on a store that holds the root's version: whatever comes of it the store retains
what had a version, and where it succeeds the head is the tip of the log. -/
theorem insertBatch_retains {chain chain' : Chain} {es : List Envelope} {r : Res Error Insert} (h : Sound contents s)
    (hroot : s.Held chain.root) (content : ∀ e ∈ es, e.toSignedPortion ∈ contents)
    (run : chain.insertBatch es s = (r, chain', t)) :
    Retains contents s t ∧ chain'.root = chain.root ∧ ∀ i, r = .ok i → Tip t.parent t.rank chain.root chain'.head := by
  obtain ⟨rs, u, hstore, hadds, hrs⟩ := Chain.storeBatch_adds h Chain.footed_start content
  have hattempt : ∃ res, (Action.attempt (Chain.storeBatch Chain.Batch.start es) : Action MemStorage Error _) s =
      (.ok res, u) := by
    rcases hrs with ⟨err, rfl⟩ | ⟨b, rfl⟩
    · exact ⟨_, Action.attempt_error hstore⟩
    · exact ⟨_, Action.attempt_ok hstore⟩
  obtain ⟨res, hattempt⟩ := hattempt
  have hrootu := hadds.versions.held hroot
  unfold Chain.insertBatch at run
  rw [hattempt] at run
  simp only at run
  rcases hcanon : chain.canonicalize u with ⟨halt | ledger, w⟩
  · rw [hcanon] at run; cases run
    rw [Chain.canonicalize_eq hrootu] at hcanon
    obtain ⟨t₁, hlog, hgrow, hw⟩ := Chain.walk_eq_error hadds.sound hrootu hcanon
    have hret := hadds.retains.trans (Retains.sameLog hadds.sound hlog hgrow)
    refine ⟨?_, rfl, nofun⟩
    rcases hw with rfl | ⟨c, hc, rfl⟩
    · exact hret
    · exact hret.trans (.remove hret.sound hc)
  · rw [hcanon] at run; cases run
    rw [Chain.canonicalize_eq hrootu] at hcanon
    have hwalk := Chain.walk_eq_ok hadds.sound.indexed (fun d e he => (hadds.sound.content d e he).2) hrootu hcanon
    refine ⟨hadds.retains.trans (Retains.sameLog hadds.sound hwalk.sameLog hwalk.grows), rfl, fun _ _ => ?_⟩
    rw [hwalk.sameLog.parent, hwalk.sameLog.rank]
    exact hwalk.tip

end Retains

/-! ## After a failed compaction -/

/-- What later calls of `insert_batch` on the same chain lead to. -/
inductive Later (contents : Set SignedPortion) (chain : Chain) (s : MemStorage) : Chain → MemStorage → Prop
  | here : Later contents chain s chain s
  | insertBatch {c c' : Chain} {t t' : MemStorage} {es : List Envelope} {r : Res Error Insert}
    (h : Later contents chain s c t) (content : ∀ e ∈ es, e.toSignedPortion ∈ contents)
    (run : c.insertBatch es t = (r, c', t')) : Later contents chain s c' t'

/-- In the log of `t`, `head` won a fork against `old`: of two children of one envelope, the one it
descends from outranks the one `old` descends from. -/
def WonAgainst (t : MemStorage) (old head : EnvelopeDigest) : Prop :=
  ∃ f x y, t.parent x = some f ∧ t.parent y = some f ∧ t.rank x < t.rank y ∧ Desc t.parent x old ∧ Desc t.parent y head

/-- The head is not lost in `s`: an empty run leaves it where it was, and every `insert_batch` that
succeeds leaves it there, moves it to a descendant, or to the winner of a fork against it. -/
structure KeepsHead (contents : Set SignedPortion) (chain : Chain) (s : MemStorage) : Prop where
  empty : (chain.insertBatch [] s).2.1.head = chain.head
  later : ∀ c t, Later contents chain s c t → ∀ es i c' t', (∀ e ∈ es, e.toSignedPortion ∈ contents) →
    c.insertBatch es t = (.ok i, c', t') → Desc t'.parent chain.head c'.head ∨ WonAgainst t' chain.head c'.head

section Failed

variable {W : World} {chain : Chain} {s t u : MemStorage} {cut root head : EnvelopeDigest}

theorem Sound.acyclic {contents : Set SignedPortion} (h : Sound contents s) (laws : DigestLaws contents) : Acyclic s.parent := by
  refine Subrelation.wf (fun {p c} hc => ?_) laws.acyclic
  obtain ⟨e, he, hp⟩ := s.parent_eq_some.1 hc
  exact ⟨e.toSignedPortion, (h.content c e he).1, (h.content c e he).2, hp⟩

/-- The store `t` still has the path of `s` from `root` to `head`: every version of it, and every
envelope but the root's. -/
structure Tracks (contents : Set SignedPortion) (s : MemStorage) (root head : EnvelopeDigest) (t : MemStorage) : Prop where
  sound : Sound contents t
  held : ∀ y, Desc s.parent root y → Desc s.parent y head → t.Held y
  log : ∀ y, Desc s.parent root y → Desc s.parent y head → y ≠ root → t.envelope y = s.envelope y

theorem Tracks.retains {contents : Set SignedPortion} (h : Tracks contents s root head t) (hr : Retains contents t u) :
    Tracks contents s root head u := by
  refine ⟨hr.sound, fun y h1 h2 => hr.versions.held (h.held y h1 h2), fun y h1 h2 hne => ?_⟩
  obtain ⟨p, hp, -⟩ := h1.exists_parent hne
  obtain ⟨e, he⟩ := s.stored_of_parent hp
  rw [he]
  exact hr.log y e (by rw [h.log y h1 h2 hne]; exact he) (h.held y h1 h2)

theorem Tracks.desc {contents : Set SignedPortion} (h : Tracks contents s root head t) (hd : Desc s.parent root head) :
    Desc t.parent root head := by
  refine Desc.restrict (fun y => Desc s.parent root y ∧ Desc s.parent y head) (fun c p hc hne hp => ?_)
    (fun c p hc hne hp => ⟨hc.1.of_parent hne hp, (Desc.of_child hp).trans hc.2⟩) hd ⟨hd, Desc.refl⟩
  simpa only [MemStorage.parent, h.log c hc.1 hc.2 hne] using hp

theorem Tracks.later {contents : Set SignedPortion} {c : Chain} (h : Tracks contents s chain.root chain.head u)
    (hd : Desc s.parent chain.root chain.head) (hl : Later contents chain u c t) :
    Tracks contents s chain.root chain.head t ∧ c.root = chain.root := by
  induction hl with
  | here => exact ⟨h, rfl⟩
  | insertBatch _ content run ih =>
    obtain ⟨htracks, hroot⟩ := ih
    have hheld := htracks.held chain.root Desc.refl hd
    rw [← hroot] at hheld
    obtain ⟨hret, hroot', -⟩ := insertBatch_retains htracks.sound hheld content run
    exact ⟨htracks.retains hret, hroot'.trans hroot⟩

theorem insertBatch_nil {ledger : Ledger} (h : chain.canonicalize s = (.ok ledger, t)) :
    (chain.insertBatch [] s).2.1 = { chain with ledger } := by
  have hstore : Chain.storeBatch Chain.Batch.start [] s = (.ok false, s) := rfl
  unfold Chain.insertBatch
  rw [Action.attempt_ok hstore]
  simp only [h]

omit [Externals] in
/-- Every envelope on the path but the root descends from a cut that is the root or its child. -/
theorem desc_cut_of_path (hac : Acyclic s.parent) (hcut : cut = root ∨ s.parent cut = some root)
    (hhead : Desc s.parent cut head) {y : EnvelopeDigest} (hy : Desc s.parent root y) (hyh : Desc s.parent y head)
    (hne : y ≠ root) : Desc s.parent cut y := by
  rcases hcut with rfl | hcut
  · exact hy
  · obtain ⟨c, hc, hcy⟩ := hy.exists_child hne
    obtain rfl := hac.eq_of_sibling hc hcut (hcy.trans hyh) hhead
    exact hcy

/-- A store stopped halfway through a compaction at the root or a child of it tracks the path. -/
theorem Halfway.tracks (h : Halfway s cut u) (hg : Good W chain s) (hcut : cut = chain.root ∨ s.parent cut = some chain.root)
    (hhead : Desc s.parent cut chain.head) : Tracks W.contents s chain.root chain.head u := by
  obtain ⟨a, h⟩ := h
  refine ⟨⟨h.indexed, fun d e he => ?_⟩, fun y h1 h2 => ?_, fun y h1 h2 hne => ?_⟩
  · rw [h.envelope_eq ⟨e, he⟩] at he
    exact hg.coherent.content d e he
  · obtain ⟨v, hv⟩ := hg.pathHeld y (hg.canonical_iff.2 ⟨h1, h2⟩)
    exact ⟨v, by rw [h.versions]; exact hv⟩
  · exact h.envelope_kept (desc_cut_of_path hg.acyclic hcut hhead h1 h2 hne)

/-- There the tip is still the head. -/
theorem Halfway.tip (h : Halfway s cut u) (hg : Good W chain s) (hcut : cut = chain.root ∨ s.parent cut = some chain.root)
    (hhead : Desc s.parent cut chain.head) : Tip u.parent u.rank chain.root chain.head := by
  obtain ⟨a, h⟩ := h
  have hcanon : Canonical s.parent s.rank chain.root cut := by
    refine hg.canonical_iff.2 ⟨?_, hhead⟩
    rcases hcut with rfl | hcut
    · exact Desc.refl
    · exact Desc.of_child hcut
  have htip : Tip u.parent u.rank cut chain.head := h.agree.tip.1 (hg.tip.of_canonical s.rank_injective hcanon)
  refine ⟨Canonical.trans ?_ htip.canonical, htip.childless⟩
  rcases hcut with rfl | hcut
  · exact Canonical.refl
  · refine Canonical.refl.winner ⟨by rw [h.parent_kept Desc.refl]; exact hcut, fun c hc => ?_⟩
    have hcs := h.extends c _ hc
    have hcut' : u.parent cut = some chain.root := by rw [h.parent_kept Desc.refl]; exact hcut
    rw [h.rank_eq (u.stored_of_parent hc), h.rank_eq (u.stored_of_parent hcut')]
    rcases Relation.ReflTransGen.cases_tail hcanon with heq | ⟨p, -, hw⟩
    · exact absurd (heq ▸ hcut) fun hp => hg.acyclic.ne_parent hp rfl
    · obtain rfl : p = chain.root := by
        have := hw.child
        rw [hcut] at this; exact (Option.some.inj this).symm
      exact hw.best c hcs

theorem Halfway.keepsHead (h : Halfway s cut u) (hg : Good W chain s)
    (hcut : cut = chain.root ∨ s.parent cut = some chain.root) (hhead : Desc s.parent cut chain.head) :
    KeepsHead W.contents chain u := by
  have htracks := h.tracks hg hcut hhead
  have htip := h.tip hg hcut hhead
  have hdesc := hg.tip.canonical.desc
  have hac := htracks.sound.acyclic W.laws
  have hext : Extends u.parent s.parent := by
    obtain ⟨a, h⟩ := h
    exact h.extends
  constructor
  · have hpath : Chain.PathHeld chain.root u := by
      intro y hy
      obtain ⟨h1, h2⟩ := (htip.canonical_iff u.rank_injective hac).1 hy
      exact htracks.held y (h1.mono hext) (h2.mono hext)
    obtain ⟨head, hrun, htip'⟩ := Chain.canonicalize_held htracks.sound.indexed hac hpath
    rw [insertBatch_nil hrun]
    exact Tip.unique u.rank_injective htip' htip
  · intro c t hl es i c' t' content run
    obtain ⟨ht, hroot⟩ := htracks.later hdesc hl
    have hheld := ht.held chain.root Desc.refl hdesc
    rw [← hroot] at hheld
    obtain ⟨hret, -, htip'⟩ := insertBatch_retains ht.sound hheld content run
    have ht' := ht.retains hret
    have htip' := htip' i rfl
    rw [hroot] at htip'
    rcases htip'.fork t'.rank_injective (ht'.sound.acyclic W.laws) (ht'.desc hdesc) with hd | ⟨f, x, y, hx, hy, hlt, -, hxh, hyh⟩
    · exact .inl hd
    · exact .inr ⟨f, x, y, hx, hy, hlt, hxh, hyh⟩

omit [Externals] in
/-- Where `compact` can fail: at any operation up to its last, which drops the versions. -/
theorem compactFailing_cases {keep : List EnvelopeDigest} {k : Nat}
    (hrun : (Chain.pruneProg chain.head cut (Chain.compactFuel s)).run s = (.ok (keep, k), u)) (n : Nat) :
    (n ≤ (Chain.pruneProg chain.head cut (Chain.compactFuel s)).count s ∧ chain.compactFailing cut n s =
      (.error (.error .storage), chain, (Chain.pruneProg chain.head cut (Chain.compactFuel s)).stop n s)) ∨
    ∃ t, chain.compactFailing cut n s = (.ok k, { chain with root := cut }, t) := by
  have hcount : (Chain.compactProg chain.head cut (Chain.compactFuel s)).count s =
      (Chain.pruneProg chain.head cut (Chain.compactFuel s)).count s + 1 := by
    unfold Chain.compactProg
    rw [Prog.count_bind, hrun]; rfl
  unfold Chain.compactFailing Prog.failing
  rw [hcount]
  by_cases hn : n < (Chain.pruneProg chain.head cut (Chain.compactFuel s)).count s + 1
  · refine .inl ⟨Nat.le_of_lt_succ hn, ?_⟩
    rw [if_pos hn, Chain.compactProg, Prog.stop_bind _ _ _ _ (Nat.le_of_lt_succ hn)]; rfl
  · refine .inr ⟨u.retain keep, ?_⟩
    rw [if_neg hn, Chain.compactProg, Prog.run_bind, hrun]; rfl

/-- Once everything above the cut is gone, the walk from a root two envelopes or more above it ends
where it starts. -/
theorem HalfwayAt.head_lost (h : HalfwayAt s cut cut u) (hg : Good W chain s) (hcutd : Desc s.parent chain.root cut)
    (hne : cut ≠ chain.root) (hchild : s.parent cut ≠ some chain.root) :
    (chain.insertBatch [] u).2.1.head = chain.root := by
  have hnone : ∀ c, u.parent c ≠ some chain.root := by
    intro c hc
    have hcs := h.extends c _ hc
    have hccut := (h.reach c (u.stored_of_parent hc)).mono h.extends
    by_cases hcc : c = cut
    · subst hcc; exact hchild hcs
    · exact hne (hg.acyclic.antisymm (hccut.of_parent hcc hcs) hcutd)
  have hpath : Chain.PathHeld chain.root u := by
    intro y hy
    rcases Relation.ReflTransGen.cases_head hy with rfl | ⟨c, hc, -⟩
    · obtain ⟨v, hv⟩ := hg.coherent.base_held
      exact ⟨v, by rw [h.versions]; exact hv⟩
    · exact absurd hc.child (hnone c)
  obtain ⟨head, hrun, htip⟩ := Chain.canonicalize_held h.indexed (hg.acyclic.mono h.extends) hpath
  rw [insertBatch_nil hrun]
  exact Tip.unique u.rank_injective htip ⟨Canonical.refl, hnone⟩

end Failed

/-- A failed `compact` loses the head at none of its operations exactly when the cut is the root or a
child of it. -/
theorem Reachable.compactFailing_keepsHead_iff {contents : Set SignedPortion} (laws : DigestLaws contents) {chain : Chain}
    {s : MemStorage} (h : Reachable contents chain s) {cut : EnvelopeDigest} (stored : s.Stored cut)
    (onPath : Desc s.parent cut chain.head) :
    (∀ n chain' u, chain.compactFailing cut n s = (.error (.error .storage), chain', u) → KeepsHead contents chain' u) ↔
      cut = chain.root ∨ s.parent cut = some chain.root := by
  obtain ⟨W, rfl, hg⟩ := h.good laws
  have hdesc := hg.coherent.desc stored
  have hcanon : Canonical s.parent s.rank chain.root cut := hg.canonical_iff.2 ⟨hdesc, onPath⟩
  obtain ⟨u, keep, k, hu, -, -, hlead⟩ :=
    Chain.pruneProg_leads hg.coherent.indexed hg.acyclic (hg.recoverable hcanon) onPath
  obtain ⟨hrun, hstop⟩ := hlead.done
  constructor
  · -- the failure of `retain` itself, once the log is pruned
    intro hall
    by_contra hno
    push Not at hno
    rcases compactFailing_cases hrun ((Chain.pruneProg chain.head cut (Chain.compactFuel s)).count s) with
      ⟨-, hfail⟩ | ⟨t, hok⟩
    · rw [Prog.stop_count, hrun] at hfail
      have hempty := (hall _ _ _ hfail).empty
      rw [hu.head_lost hg hdesc hno.1 hno.2] at hempty
      rw [← hempty] at onPath
      exact hno.1 (hg.acyclic.antisymm onPath hdesc)
    · unfold Chain.compactFailing Prog.failing at hok
      rw [if_pos (by unfold Chain.compactProg; rw [Prog.count_bind, hrun]; exact Nat.lt_succ_self _)] at hok
      cases hok
  · intro hcut n chain' u' hfail
    rcases compactFailing_cases hrun n with ⟨-, hfail'⟩ | ⟨t, hok⟩
    · rw [hfail'] at hfail; cases hfail
      rcases hstop n with hhalf | hend
      · exact hhalf.keepsHead hg hcut onPath
      · rw [hend]; exact Halfway.keepsHead ⟨cut, hu⟩ hg hcut onPath
    · rw [hok] at hfail; cases hfail

end IrohLotus.State

/-! ## The samples -/

namespace IrohLotus.State

open Std Outcome Forest IrohLotus.Wire IrohLotus.Wire.Sample IrohLotus.Storage

theorem compactFailing_keepsHead_linearStore :
    linearStore.parent firstDigest = some genesisDigest ∧ ∀ n chain' u,
      (Chain.mk genesisDigest ⟨secondDigest⟩).compactFailing firstDigest n linearStore =
        (.error (.error .storage), chain', u) → KeepsHead Sample.contents chain' u := by
  have hstored : linearStore.Stored firstDigest := ⟨first.setVerificationStatus (.allMatched 0), by decide +kernel⟩
  have hpath : Desc linearStore.parent firstDigest secondDigest := Desc.of_child (by decide +kernel)
  have hparent : linearStore.parent firstDigest = some genesisDigest := by decide +kernel
  exact ⟨hparent,
    (Reachable.compactFailing_keepsHead_iff sample_laws reachable_linearStore hstored hpath).2 (.inr hparent)⟩

/-- Cut at `second`, two envelopes below the root: the store refuses the ninth operation, after both
ancestors were removed, and an empty run then takes the head back to genesis. -/
theorem compactFailing_loses_head :
    Reachable Sample.contents ⟨genesisDigest, ⟨secondDigest⟩⟩ linearStore ∧
      ∃ u, (Chain.mk genesisDigest ⟨secondDigest⟩).compactFailing secondDigest 8 linearStore =
          (.error (.error .storage), ⟨genesisDigest, ⟨secondDigest⟩⟩, u) ∧
        ((Chain.mk genesisDigest ⟨secondDigest⟩).insertBatch [] u).1 = .ok (.reorged secondDigest) ∧
        ((Chain.mk genesisDigest ⟨secondDigest⟩).insertBatch [] u).2.1.head = genesisDigest ∧
        ¬ KeepsHead Sample.contents ⟨genesisDigest, ⟨secondDigest⟩⟩ u := by
  refine ⟨reachable_linearStore, (Chain.mk genesisDigest ⟨secondDigest⟩).compactStopped secondDigest 8 linearStore,
    by decide +kernel, by decide +kernel, by decide +kernel, fun hkeeps => ?_⟩
  have hne : ((Chain.mk genesisDigest ⟨secondDigest⟩).insertBatch []
      ((Chain.mk genesisDigest ⟨secondDigest⟩).compactStopped secondDigest 8 linearStore)).2.1.head ≠ secondDigest := by
    decide +kernel
  exact hne hkeeps.empty

end IrohLotus.State
