/-
A join left to itself ends. Every piece of work takes the joiner or its sponsor a stage on, or spends of the
pull under way, which the envelopes the sponsor logs bound. And there is always a piece to do: where there is
none one of them failed, or the joiner has joined and the sponsor is done with it.
-/
import IrohLotus.Lotusd.Join

namespace IrohLotus.Lotusd.Bootstrap

open Std Outcome Forest IrohLotus.Wire IrohLotus.Storage IrohLotus.State IrohLotus.Sync

section Opened

/-! ## What has been opened -/

/-- The task has not served the first pull. -/
def Serving.Before : Serving → Prop
  | .awaitsJoin | .redeems _ _ | .serves _ _ | .failed _ => True
  | .admits _ _ | .servesAgain _ | .awaitsEnd _ | .done _ => False

/-- It has not served the second. -/
def Serving.Early : Serving → Prop
  | .awaitsJoin | .redeems _ _ | .serves _ _ | .admits _ _ | .servesAgain _ | .failed _ => True
  | .awaitsEnd _ | .done _ => False

/-- The joiner has not failed. -/
def Joining.Live : Joining → Prop
  | .failed _ => False
  | .starts | .awaitsWelcome | .pulls _ | .awaitsAdmitted _ | .pullsAgain _ _ | .joined _ _ => True

/-- Beside a joiner that is there, what was served had been opened. -/
structure Opened (j : Join) : Prop where
  first : (∃ why, j.joining = .failed why) ∨ j.first ≠ none ∨ j.serving.Before
  second : (∃ why, j.joining = .failed why) ∨ j.second ≠ none ∨ j.serving.Early

variable {j j' : Join} {joining : Joining} {serving : Serving} {toSponsor toJoiner : List Message}

theorem Opened.live (h : Opened j) (live : ∀ why, j.joining ≠ .failed why) :
    (j.first ≠ none ∨ j.serving.Before) ∧ (j.second ≠ none ∨ j.serving.Early) := by
  refine ⟨?_, ?_⟩
  · rcases h.first with ⟨why, hwhy⟩ | hfirst
    · exact absurd hwhy (live why)
    · exact hfirst
  · rcases h.second with ⟨why, hwhy⟩ | hsecond
    · exact absurd hwhy (live why)
    · exact hsecond

/-- The joiner goes on. -/
theorem Opened.joins (h : Opened j) (live : ∀ why, j.joining ≠ .failed why) :
    Opened { j with joining, toSponsor, toJoiner } :=
  ⟨.inr (h.live live).1, .inr (h.live live).2⟩

/-- The task goes on, and has served nothing. -/
theorem Opened.waits (hbefore : serving.Before) (hearly : serving.Early) {mainloop : Sponsor} :
    Opened { j with mainloop, serving, toSponsor, toJoiner } :=
  ⟨.inr (.inr hbefore), .inr (.inr hearly)⟩

theorem readJoin_waits (message : Message) : (readJoin message).1.Before ∧ (readJoin message).1.Early := by
  unfold readJoin
  split
  · split
    · exact ⟨trivial, trivial⟩
    · exact ⟨trivial, trivial⟩
  · exact ⟨trivial, trivial⟩

theorem welcomed_waits (key : PublicKey) (outcome : Res InviteError Welcomed) :
    (welcomed key outcome).1.Before ∧ (welcomed key outcome).1.Early := by
  cases outcome with
  | ok => exact ⟨trivial, trivial⟩
  | error => exact ⟨trivial, trivial⟩

theorem answered_early [Externals] (key : PublicKey) (outcome : Res Error EnvelopeDigest) :
    (answered key outcome).1.Early := by
  cases outcome with
  | ok => trivial
  | error => trivial

variable [Externals] {W : World} {p : Parties}

theorem Opened.work [Encoding] [AddrText] (h : Opened j) (work : j.Work p j') : Opened j' := by
  have hfirst : ∀ {serving}, j.serving = serving → ¬ serving.Before →
      (∃ why, j.joining = .failed why) ∨ j.first ≠ none := by
    intro serving hserving hpast
    rcases h.first with hfailed | hopen | hbefore
    · exact .inl hfailed
    · exact .inr hopen
    · exact absurd (hserving ▸ hbefore) hpast
  have hsecond : ∀ {serving}, j.serving = serving → ¬ serving.Early →
      (∃ why, j.joining = .failed why) ∨ j.second ≠ none := by
    intro serving hserving hpast
    rcases h.second with hfailed | hopen | hearly
    · exact .inl hfailed
    · exact .inr hopen
    · exact absurd (hserving ▸ hearly) hpast
  have hlive : ∀ {joining}, j.joining = joining → joining.Live → ∀ why, j.joining ≠ .failed why := by
    intro joining hjoining hlive why hwhy
    rw [← hjoining, hwhy] at hlive
    exact hlive
  cases work with
  | outdated at' => exact h.joins (hlive at' trivial)
  | asks at' => exact h.joins (hlive at' trivial)
  | reads => exact Opened.waits (readJoin_waits _).1 (readJoin_waits _).2
  | redeems => exact Opened.waits (welcomed_waits _ _).1 (welcomed_waits _ _).2
  | welcomes clock at' => exact h.joins (hlive at' trivial)
  | opens => exact ⟨.inr (.inl nofun), h.second⟩
  | talks pulling => exact ⟨.inr (.inl nofun), .inr (h.live (hlive pulling trivial)).2⟩
  | pullFails pulling => exact h.joins (hlive pulling trivial)
  | lands pulling => exact h.joins (hlive pulling trivial)
  | serveFails => exact ⟨.inr (.inr trivial), .inr (.inr trivial)⟩
  | served at' underway => exact ⟨.inr (.inl (by rw [underway]; nofun)), .inr (.inr trivial)⟩
  | admits at' => exact ⟨(hfirst at' id).imp id .inl, .inr (.inr (answered_early _ _))⟩
  | hears at' => exact h.joins (hlive at' trivial)
  | opensAgain => exact ⟨h.first, .inr (.inl nofun)⟩
  | talksAgain pulling => exact ⟨.inr (h.live (hlive pulling trivial)).1, .inr (.inl nofun)⟩
  | pullFailsAgain pulling => exact h.joins (hlive pulling trivial)
  | landsAgain pulling => exact h.joins (hlive pulling trivial)
  | serveFailsAgain => exact ⟨.inr (.inr trivial), .inr (.inr trivial)⟩
  | servedAgain at' underway => exact ⟨(hfirst at' id).imp id .inl, .inr (.inl (by rw [underway]; nofun))⟩
  | ends joined at' => exact ⟨(hfirst at' id).imp id .inl, (hsecond at' id).imp id .inl⟩

theorem Join.Runs.opened [Encoding] [AddrText] {contents : Set SignedPortion} {mainloop : Sponsor}
    (run : Join.Runs contents p mainloop j) :
    Opened j := by
  induction run with
  | started => exact ⟨.inr (.inr trivial), .inr (.inr trivial)⟩
  | step _ step ih =>
    cases step with
    | work work => exact ih.work work
    | elsewhere => exact ⟨ih.first, ih.second⟩
    | joinerLost => exact ⟨.inl ⟨_, rfl⟩, .inl ⟨_, rfl⟩⟩
    | sponsorLost => exact ⟨.inr (.inr trivial), .inr (.inr trivial)⟩
    | closed gone => exact ⟨.inl ⟨_, gone⟩, .inl ⟨_, gone⟩⟩
    | closedAgain gone => exact ⟨.inl ⟨_, gone⟩, .inl ⟨_, gone⟩⟩
    | ended gone => exact ⟨.inl ⟨_, gone⟩, .inl ⟨_, gone⟩⟩

end Opened

/-! ## What is left to do -/

section Left

variable {j j' : Join} {joining : Joining} {serving : Serving} {toSponsor toJoiner : List Message}

/-- The stages a joiner has before it. -/
def Joining.left : Joining → ℕ
  | .starts => 6
  | .awaitsWelcome => 5
  | .pulls _ => 4
  | .awaitsAdmitted _ => 3
  | .pullsAgain _ _ => 2
  | .joined _ _ => 1
  | .failed _ => 0

/-- And its sponsor. -/
def Serving.left : Serving → ℕ
  | .awaitsJoin => 6
  | .redeems _ _ => 5
  | .serves _ _ => 4
  | .admits _ _ => 3
  | .servesAgain _ => 2
  | .awaitsEnd _ => 1
  | .done _ | .failed _ => 0

/-- Both together; a pull to be opened is one as well. -/
def Join.stages (j : Join) : ℕ := j.joining.left + j.serving.left +
    (j.first.elim 1 fun _ => 0) + j.second.elim 1 fun _ => 0

/-- What there is to do: stages, and within them what is left of the pulls, which stream no more than the
sponsor logs. -/
noncomputable def Join.rank (j : Join) : ℕ ×ₗ ℕ :=
  toLex (j.stages, (j.first.elim 0 (Exchange.left j.mainloop.core.storage.digests.card)) +
    j.second.elim 0 (Exchange.left j.mainloop.core.storage.digests.card))

theorem Join.rank_lt (h : j'.stages < j.stages) : j'.rank < j.rank := Prod.Lex.toLex_lt_toLex.2 (.inl h)

theorem Join.rank_joins (h : joining.left < j.joining.left) :
    Join.rank { j with joining, toSponsor, toJoiner } < j.rank := by
  refine Join.rank_lt ?_
  unfold Join.stages
  dsimp only
  omega

theorem Join.rank_serves (h : serving.left < j.serving.left) {mainloop : Sponsor} :
    Join.rank { j with mainloop, serving, toSponsor, toJoiner } < j.rank := by
  refine Join.rank_lt ?_
  unfold Join.stages
  dsimp only
  omega

theorem readJoin_left (message : Message) : (readJoin message).1.left ≤ 5 := by
  unfold readJoin
  split
  · split
    · exact Nat.zero_le 5
    · exact Nat.le_refl 5
  · exact Nat.zero_le 5

theorem welcomed_left (key : PublicKey) (outcome : Res InviteError Welcomed) : (welcomed key outcome).1.left ≤ 4 := by
  cases outcome with
  | ok => exact Nat.le_refl 4
  | error => exact Nat.zero_le 4

theorem answered_left [Externals] (key : PublicKey) (outcome : Res Error EnvelopeDigest) :
    (answered key outcome).1.left ≤ 2 := by
  cases outcome with
  | ok => exact Nat.le_refl 2
  | error => exact Nat.zero_le 2

theorem readWelcome_left [Externals] (invite : Invited) (clock : StoredAt) (message : Message) :
    (readWelcome invite clock message).left ≤ 4 := by
  rcases readWelcome_cases invite clock message with ⟨core, hpulls⟩ | ⟨why, hwhy⟩
  · rw [hpulls]
    exact Nat.le_refl 4
  · rw [hwhy]
    exact Nat.zero_le 4

theorem landed_left (core : Core) (outcome : PullOutcome) : (landed core outcome).left ≤ 3 := by
  cases outcome with
  | noCommonHistory => exact Nat.zero_le 3
  | synced => exact Nat.le_refl 3
  | alreadyCurrent => exact Nat.le_refl 3

theorem readAdmitted_left (core : Core) (message : Message) : (readAdmitted core message).left ≤ 2 := by
  cases message with
  | admitted => exact Nat.le_refl 2
  | refused => exact Nat.zero_le 2
  | join => exact Nat.zero_le 2
  | welcome => exact Nat.zero_le 2

theorem landedAgain_left [Externals] (invite : Invited) (keys : NodeKeys) (core : Core) (admitted : EnvelopeDigest)
    (outcome : PullOutcome) :
    (landedAgain invite keys core admitted outcome).left ≤ 1 := by
  unfold landedAgain
  split
  · split
    · exact Nat.zero_le 1
    · exact Nat.le_refl 1
  · split
    · exact Nat.zero_le 1
    · exact Nat.le_refl 1
  · exact Nat.zero_le 1

end Left

section Ends

variable [Externals] {W : World} {p : Parties} {j j' : Join}

/-- A step of a pull spends of what is left of it. -/
theorem Exchange.left_went [Encoding] {still : Prop} {there core : Core} {x : Exchange} {q : Pull}
    (honest : (x.pull core there).Honest still W x.head) (step : Pull.Step x.head (x.pull core there) q) :
    (x.went q).left there.storage.digests.card < x.left there.storage.digests.card := by
  have hthere : q.there = there := step.there_eq
  have hlogged : ∀ d, q.there.storage.Stored d → d ∈ there.storage.digests := fun d hd => by
    rw [hthere] at hd
    exact there.storage.mem_digests.2 hd
  exact step.spends x ((honest.step step).sent_le hlogged)

/-- Every piece of work is one less to do. -/
theorem Kept.descends [Encoding] [AddrText] (h : Kept W p j) (work : j.Work p j') : j'.rank < j.rank := by
  have hjoining : ∀ {joining joining' : Joining}, j.joining = joining → joining'.left < joining.left →
      joining'.left < j.joining.left := fun hat hlt => hat ▸ hlt
  have hserving : ∀ {serving serving' : Serving}, j.serving = serving → serving'.left < serving.left →
      serving'.left < j.serving.left := fun hat hlt => hat ▸ hlt
  cases work with
  | outdated at' => exact Join.rank_joins (hjoining at' (Nat.succ_pos 5))
  | asks at' => exact Join.rank_joins (hjoining at' (Nat.lt_succ_self 5))
  | reads at' => exact Join.rank_serves (hserving at' (Nat.lt_succ_of_le (readJoin_left _)))
  | redeems at' => exact Join.rank_serves (hserving at' (Nat.lt_succ_of_le (welcomed_left _ _)))
  | welcomes clock at' => exact Join.rank_joins (hjoining at' (Nat.lt_succ_of_le (readWelcome_left _ _ _)))
  | opens pulling at' unopened =>
    refine Join.rank_lt ?_
    unfold Join.stages
    rw [unopened]
    dsimp only [Option.elim]
    omega
  | talks pulling underway step =>
    refine Prod.Lex.toLex_lt_toLex.2 (.inr ⟨?_, ?_⟩)
    · unfold Join.stages
      rw [pulling, underway]
      rfl
    · rw [underway]
      exact Nat.add_lt_add_right (Exchange.left_went (h.stands.first_of pulling underway) step) _
  | pullFails pulling => exact Join.rank_joins (hjoining pulling (Nat.succ_pos 3))
  | lands pulling => exact Join.rank_joins (hjoining pulling (Nat.lt_succ_of_le (landed_left _ _)))
  | serveFails _ at' =>
    refine Join.rank_serves (hserving at' ?_)
    exact Nat.succ_pos 3
  | served at' =>
    refine Join.rank_serves (hserving at' ?_)
    exact Nat.lt_succ_self 3
  | admits at' => exact Join.rank_serves (hserving at' (Nat.lt_succ_of_le (answered_left _ _)))
  | hears at' => exact Join.rank_joins (hjoining at' (Nat.lt_succ_of_le (readAdmitted_left _ _)))
  | opensAgain pulling at' unopened =>
    refine Join.rank_lt ?_
    unfold Join.stages
    rw [unopened]
    dsimp only [Option.elim]
    omega
  | talksAgain pulling underway step =>
    refine Prod.Lex.toLex_lt_toLex.2 (.inr ⟨?_, ?_⟩)
    · unfold Join.stages
      rw [pulling, underway]
      rfl
    · rw [underway]
      exact Nat.add_lt_add_left (Exchange.left_went (h.stands.second_of pulling underway) step) _
  | pullFailsAgain pulling => exact Join.rank_joins (hjoining pulling (Nat.succ_pos 1))
  | landsAgain pulling => exact Join.rank_joins (hjoining pulling (Nat.lt_succ_of_le (landedAgain_left _ _ _ _ _)))
  | serveFailsAgain _ at' =>
    refine Join.rank_serves (hserving at' ?_)
    exact Nat.succ_pos 1
  | servedAgain at' =>
    refine Join.rank_serves (hserving at' ?_)
    exact Nat.lt_succ_self 1
  | ends _ at' =>
    refine Join.rank_serves (hserving at' ?_)
    exact Nat.lt_succ_self 0

theorem Kept.acc [Encoding] [AddrText] (h : Kept W p j) (pinned : p.invite.root = W.genesis)
    (signed : ∀ e e', p.sponsor.sign e = .ok e' → e'.toSignedPortion ∈ W.contents) :
      Acc (fun j' j => Join.Work p j j') j :=
  Descent.acc (fun _ _ ha hab => Kept.work ha pinned signed hab) (fun _ _ ha hab => Kept.descends ha hab) h

/-! ## There is always something to do -/

section Quiet

variable {there core : Core} {x : Exchange}

/-- A pull is over, or a step of it is left to take. -/
theorem Draws.progress [Encoding] (h : Draws W there core) (short : there.storage.digests.card ≤ 2 ^ 62)
    (honest : (x.pull core there).Honest False W x.head) :
    (∃ q, Pull.Step x.head (x.pull core there) q) ∨ ∃ outcome, x.puller.pending = [.done outcome] := by
  classical
  refine honest.progress fun path hpath => ?_
  obtain ⟨path', hpath', hline⟩ := Core.walkCanonical_eq_ok h.full.good.acyclic
  obtain rfl : path' = path := Except.ok.inj (hpath'.symm.trans hpath)
  have hsub : path'.toFinset ⊆ there.storage.digests := fun d hd =>
    there.storage.mem_digests.2 (h.drawn d (h.full.stored_of_desc (hline.mem_iff.1 (List.mem_toFinset.1 hd))))
  have hcard := Finset.card_le_card hsub
  rw [List.toFinset_card_of_nodup (hline.nodup h.full.good.acyclic)] at hcard
  exact hcard.trans short

variable [Encoding] [AddrText]

theorem Kept.not_pulls (h : Kept W p j) (short : j.mainloop.core.storage.digests.card ≤ 2 ^ 62) (quiet : j.Quiet p)
    (underway : j.first = some x) : j.joining ≠ .pulls core := by
  intro pulling
  have hdraws := h.stands.draws (congrArg Joining.core pulling)
  rcases hdraws.progress short (h.stands.first_of pulling underway) with ⟨q, step⟩ | ⟨outcome, done⟩
  · exact quiet _ (.talks pulling underway step)
  · exact quiet _ (.lands pulling underway done)

theorem Kept.not_pullsAgain (h : Kept W p j) (short : j.mainloop.core.storage.digests.card ≤ 2 ^ 62)
    (quiet : j.Quiet p)
    {admitted : EnvelopeDigest} (underway : j.second = some x) : j.joining ≠ .pullsAgain core admitted := by
  intro pulling
  have hdraws := h.stands.draws (congrArg Joining.core pulling)
  rcases hdraws.progress short (h.stands.second_of pulling underway) with ⟨q, step⟩ | ⟨outcome, done⟩
  · exact quiet _ (.talksAgain pulling underway step)
  · exact quiet _ (.landsAgain pulling underway done)

/-- Where nothing is left to do one of the two failed, or the join is done. -/
theorem Kept.ended (h : Kept W p j) (opened : Opened j) (short : j.mainloop.core.storage.digests.card ≤ 2 ^ 62)
    (quiet : j.Quiet p) :
    (∃ why, j.joining = .failed why) ∨ (∃ why, j.serving = .failed why) ∨
      ∃ core admitted node, j.joining = .joined core admitted ∧ j.serving = .done node := by
  rcases h.meets with hfailed | hfailed | hmeets
  · exact .inl hfailed
  · exact .inr (.inl hfailed)
  have hstands := h.stands
  have hpulls : ∀ core x, j.first = some x → j.joining ≠ .pulls core := fun core x => h.not_pulls short quiet
  have hpullsAgain : ∀ core admitted x, j.second = some x → j.joining ≠ .pullsAgain core admitted :=
    fun core admitted x => h.not_pullsAgain short quiet
  obtain ⟨mainloop, serving, joining, toSponsor, toJoiner, first, second⟩ := j
  dsimp only at *
  cases hmeets with
  | connected =>
    by_cases hcurrent : p.invite.version = INVITE_VERSION
    · exact (quiet _ (.asks rfl hcurrent)).elim
    · exact (quiet _ (.outdated rfl hcurrent)).elim
  | asked => exact (quiet _ (.reads rfl rfl)).elim
  | redeeming => exact (quiet _ (.redeems rfl)).elim
  | welcoming weight root => exact (quiet _ (.welcomes 0 rfl rfl)).elim
  | serving pulling weight =>
    cases hstands with
    | @pulls core draws =>
      cases first with
      | none => exact (quiet _ (.opens rfl rfl rfl)).elim
      | some x => exact absurd rfl (hpulls core x rfl)
    | awaitsAdmitted draws parted =>
      obtain ⟨x, underway, hparted⟩ := parted
      exact (quiet _ (.served rfl underway (hparted.imp id fun hread => ⟨nofun, hread⟩))).elim
    | _ => exact pulling.elim
  | admitting => exact (quiet _ (.admits rfl)).elim
  | admitted past pulling digest =>
    cases hstands with
    | @pulls core draws =>
      cases first with
      | none =>
        -- the task served a pull nobody opened
        rcases opened.first with ⟨why, hwhy⟩ | hopen | hbefore
        · cases hwhy
        · exact absurd rfl hopen
        · cases serving <;> first | exact past.elim | exact hbefore.elim
      | some x => exact absurd rfl (hpulls core x rfl)
    | awaitsAdmitted => exact (quiet _ (.hears rfl rfl)).elim
    | _ => exact pulling.elim
  | checking past checking =>
    cases hstands with
    | @pullsAgain core admitted draws =>
      cases second with
      | none =>
        cases serving with
        | servesAgain => exact (quiet _ (.opensAgain rfl rfl rfl)).elim
        | awaitsEnd =>
          rcases opened.second with ⟨why, hwhy⟩ | hopen | hearly
          · cases hwhy
          · exact absurd rfl hopen
          · exact hearly.elim
        | done =>
          rcases opened.second with ⟨why, hwhy⟩ | hopen | hearly
          · cases hwhy
          · exact absurd rfl hopen
          · exact hearly.elim
        | _ => exact past.elim
      | some x => exact absurd rfl (hpullsAgain core admitted x rfl)
    | @joined core admitted draws parted =>
      obtain ⟨x, underway, hparted⟩ := parted
      cases serving with
      | servesAgain => exact (quiet _ (.servedAgain rfl underway (hparted.imp id fun hread => ⟨nofun, hread⟩))).elim
      | awaitsEnd => exact (quiet _ (.ends rfl rfl)).elim
      | done node => exact .inr (.inr ⟨core, admitted, node, rfl, rfl⟩)
      | _ => exact past.elim
    | _ => exact checking.elim

/-- Left to itself a join ends, whichever piece of work is done next; and where it ends one of the two failed,
or the joiner has joined and the sponsor is done with it. -/
theorem Join.Runs.comes_to_end {contents : Set SignedPortion} (laws : DigestLaws contents) {start : Envelope}
    (content : start.toSignedPortion ∈ contents)
    (signed : ∀ e e', p.sponsor.sign e = .ok e' → e'.toSignedPortion ∈ contents) {mainloop : Sponsor}
    (grown : mainloop.core.Grown contents start) (pinned : p.invite.root = mainloop.core.root)
    (run : Join.Runs contents p mainloop j) :
    (∀ work : ℕ → Join, work 0 = j → ∃ n, ¬ (work n).Work p (work (n + 1))) ∧
    (∃ j', Relation.ReflTransGen (Join.Work p) j j' ∧ j'.Quiet p) ∧
    (j.mainloop.core.storage.digests.card ≤ 2 ^ 62 → j.Quiet p → (∃ why, j.joining = .failed why) ∨
      (∃ why, j.serving = .failed why) ∨ ∃ core admitted node, j.joining = .joined core admitted ∧
        j.serving = .done node) := by
  obtain ⟨W, rfl, hfull⟩ := grown.exists_world laws content
  have hstart := hfull _ grown
  have hroot : p.invite.root = W.genesis := pinned.trans (hstart.oldest.trans hstart.root)
  have h := run.kept hstart (hands_of_grown content hfull grown) hroot signed
  have hacc := h.acc hroot signed
  exact ⟨Descent.not_forever hacc, Descent.exists_end hacc, h.ended run.opened⟩

end Quiet

end Ends

end IrohLotus.Lotusd.Bootstrap

/-! ## The sample -/

namespace IrohLotus.Lotusd.Bootstrap

open Std Outcome IrohLotus.Wire IrohLotus.Wire.Founded IrohLotus.Storage IrohLotus.State IrohLotus.Sync

/-- The founder admits its joiner, and then neither has anything left to do. -/
theorem ends_joined : ∃ j core, Join.Runs Set.univ foundedParties inviting j ∧ j.Quiet foundedParties ∧
    j.joining = .joined core joinedDigest ∧ j.serving = .done joinerId ∧ core.head = j.mainloop.core.head := by
  obtain ⟨j, core, run, hthere, hjoined, hdone, hhead⟩ := joins_founded
  have hsigned : ∀ e e', foundedParties.sponsor.sign e = .ok e' → e'.toSignedPortion ∈ Set.univ :=
    fun _ _ _ => Set.mem_univ _
  obtain ⟨-, ⟨j', steps, quiet⟩, -⟩ := Join.Runs.comes_to_end founded_laws
    (Set.mem_univ _) hsigned grown_foundedCore rfl run
  -- no work is left to either, so this is where it ends
  have hsame : j = j' := by
    rcases steps.cases_head with hsame | ⟨next, work, -⟩
    · exact hsame
    · cases work <;> simp_all
  have hadmitted : admittedCore.head = joinedDigest := by decide +kernel
  refine ⟨j, core, run, hsame ▸ quiet, hjoined, hdone, ?_⟩
  rw [hthere, hhead, hadmitted]

end IrohLotus.Lotusd.Bootstrap
