/-
Subscriptions to what the chain changes (`lotusd::subscribe`): filters, the notification a publisher
merges movements into, and what a reader takes. A publisher skips the movements a filter does not
select, so a notification covers everything between its two heads only where nothing was skipped
between them.
-/
import IrohLotus.State.Merge
import IrohLotus.Wire.Sample

namespace IrohLotus.Lotusd

open Std IrohLotus.Wire IrohLotus.State

/-! ## Filters -/

/-- One thing a subscriber wants to hear about. -/
inductive ChangeSelector where
  | head
  | «namespace» (key : NamespaceKey)
  | path (key : NamespaceKey) (path : SubkeyPath)
  | orphaned (digest : EnvelopeDigest)
deriving DecidableEq

/-- Whether a movement that happened selects this. -/
def ChangeSelector.selects (movement : Movement) : ChangeSelector → Bool
  | .head => true
  | .namespace key => movement.changes.touches key none
  | .path key subpath => movement.changes.touches key (some subpath)
  | .orphaned digest => movement.orphaned.contains digest

/-- What one subscription watches; never empty. -/
structure ChangeFilter where
  first : ChangeSelector
  rest : List ChangeSelector
deriving DecidableEq

namespace ChangeFilter

def of (selector : ChangeSelector) : ChangeFilter := ⟨selector, []⟩

def and (filter : ChangeFilter) (selector : ChangeSelector) : ChangeFilter := { filter with rest := filter.rest ++ [selector] }

def selectors (filter : ChangeFilter) : List ChangeSelector := filter.first :: filter.rest

/-- Whether any selector matched. -/
def «matches» (filter : ChangeFilter) (movement : Movement) : Bool := filter.selectors.any (·.selects movement)

end ChangeFilter

/-! ## Notifications -/

/-- A movement of the canonical head, as the core publishes it. -/
structure Published where
  source : EnvelopeDigest
  head : EnvelopeDigest
  movement : Movement
deriving DecidableEq

/-- What a subscriber is woken with: the heads before and after, and what happened between them. -/
structure ChangeNotification where
  source : EnvelopeDigest
  head : EnvelopeDigest
  movement : Movement
deriving DecidableEq

/-- A subscription as its publisher and its handle share it: the filter, what has accumulated since
the reader last drained, and whether the one-slot channel holds a wake. -/
structure Subscriber where
  filter : ChangeFilter
  pending : Option ChangeNotification
  wake : Bool
deriving DecidableEq

namespace Subscriber

/-- A subscription just registered. -/
def registered (filter : ChangeFilter) : Subscriber := ⟨filter, none, false⟩

/-- What is pending once a movement joined it. -/
def accumulate (pending : Option ChangeNotification) (p : Published) : ChangeNotification :=
  match pending with
  -- `source` stays where the oldest undrained movement started
  | some accumulated => { accumulated with head := p.head, movement := accumulated.movement.merge p.movement }
  | none => ⟨p.source, p.head, p.movement⟩

/-- The first half of `push`, under the lock of what is pending. -/
def merge (s : Subscriber) (p : Published) : Subscriber := { s with pending := some (accumulate s.pending p) }

/-- The second half of `push`: a full channel already holds a wake. -/
def trySend (s : Subscriber) : Subscriber := { s with wake := true }

/-- Merges a movement into what is pending and wakes the subscriber. -/
def push (s : Subscriber) (p : Published) : Subscriber := (s.merge p).trySend

/-- What one subscription sees of `Subscriptions::publish`. -/
def publish (s : Subscriber) (p : Published) : Subscriber := if s.filter.matches p.movement then s.push p else s

/-- `SubscriptionInner::take`. -/
def take (s : Subscriber) : Option ChangeNotification × Subscriber := (s.pending, { s with pending := none })

end Subscriber

/-! ## A subscription's runs -/

/-- What happens to one subscription: a movement is published, or its reader takes what is pending. -/
inductive Event where
  | published (p : Published)
  | taken (notification : Option ChangeNotification)

/-- The movements published since the last take, oldest first. -/
def window (events : List Event) : List Published :=
  events.foldl
    (fun window event =>
      match event with
      | .published p => window ++ [p]
      | .taken _ => []) []

@[simp] theorem window_published (events : List Event) (p : Published) :
    window (events ++ [.published p]) = window events ++ [p] := by
  unfold window
  rw [List.foldl_append]; rfl

@[simp] theorem window_taken (events : List Event) (n : Option ChangeNotification) :
    window (events ++ [.taken n]) = [] := by
  unfold window
  rw [List.foldl_append]; rfl

/-- The runs of a subscription under `filter`, opened where the chain stood at `openedAt`: successive
movements of the head and any takes between them. -/
inductive Watched (filter : ChangeFilter) (openedAt : EnvelopeDigest) : List Event → EnvelopeDigest → Subscriber → Prop
  | registered : Watched filter openedAt [] openedAt (.registered filter)
  | published {events : List Event} {s : Subscriber} {p : Published} (before : Watched filter openedAt events p.source s)
    (formed : p.movement.changes.Formed) : Watched filter openedAt (events ++ [.published p]) p.head (s.publish p)
  | taken {events : List Event} {head : EnvelopeDigest} {s : Subscriber} (before : Watched filter openedAt events head s) :
    Watched filter openedAt (events ++ [.taken s.take.1]) head s.take.2

/-- Movements that follow one another, from one head to another. -/
inductive Spans : EnvelopeDigest → List Published → EnvelopeDigest → Prop
  | nil {head : EnvelopeDigest} : Spans head [] head
  | cons {p : Published} {span : List Published} {head : EnvelopeDigest} (rest : Spans p.head span head) :
    Spans p.source (p :: span) head

theorem Spans.eq_of_nil {source head : EnvelopeDigest} (h : Spans source [] head) : source = head := by
  cases h; rfl

theorem Spans.snoc {source head : EnvelopeDigest} {span : List Published} (h : Spans source span head) {p : Published}
    (hp : p.source = head) : Spans source (span ++ [p]) p.head := by
  induction h with
  | nil => subst hp; exact .cons .nil
  | cons _ ih => exact .cons (ih hp)

/-- Of the movements published since the last take, those between the notification's two heads are
all in its movement; the others the filter did not select. -/
def Covers (filter : ChangeFilter) (window : List Published) (n : ChangeNotification) : Prop :=
  ∃ before span after, window = before ++ span ++ after ∧ Spans n.source span n.head ∧
    (∀ p ∈ before ++ after, filter.matches p.movement = false) ∧ ∀ p ∈ span, n.movement.Includes p.movement

/-- No movement the filter selects is published over one it passed by: where one does, all that was
published since the first selected one after the last take was selected too. -/
def Unbroken (filter : ChangeFilter) (events : List Event) : Prop :=
  ∀ pre p post, events = pre ++ .published p :: post → filter.matches p.movement = true →
    ∀ a q b, window pre = a ++ q :: b → filter.matches q.movement = true → ∀ r ∈ b, filter.matches r.movement = true

section Covers

variable {filter : ChangeFilter} {openedAt head : EnvelopeDigest} {events : List Event} {s : Subscriber}

theorem Unbroken.of_append {more : List Event} (h : Unbroken filter (events ++ more)) : Unbroken filter events := by
  intro pre p post hev
  refine h pre p (post ++ more) ?_
  rw [hev, List.append_assoc, List.cons_append]

/-- What is pending against what was published since the last take: the selected movements up to
`last` are merged, and nothing after it was selected. -/
inductive Accumulated (filter : ChangeFilter) (head : EnvelopeDigest) (window : List Published) :
    Option ChangeNotification → Prop
  | nothing (skipped : ∀ p ∈ window, filter.matches p.movement = false) : Accumulated filter head window none
  | merged {n : ChangeNotification} {before span after : List Published} {last : Published}
    (split : window = before ++ (span ++ [last]) ++ after) (spans : Spans n.source (span ++ [last]) n.head)
    (follows : Spans n.head after head) (selected : filter.matches last.movement = true)
    (skipped : ∀ p ∈ before ++ after, filter.matches p.movement = false)
    (includes : ∀ p ∈ span ++ [last], n.movement.Includes p.movement) : Accumulated filter head window (some n)

theorem Accumulated.covers {n : ChangeNotification} {window : List Published} (h : Accumulated filter head window (some n)) :
    Covers filter window n := by
  cases h with
  | merged split spans _ _ skipped includes => exact ⟨_, _, _, split, spans, skipped, includes⟩

theorem Watched.filter_eq (h : Watched filter openedAt events head s) : s.filter = filter := by
  induction h with
  | registered => rfl
  | @published events s p before formed ih =>
    unfold Subscriber.publish
    split
    · exact ih
    · exact ih
  | taken before ih => exact ih

theorem Watched.accumulated (h : Watched filter openedAt events head s) (hub : Unbroken filter events) :
    Accumulated filter head (window events) s.pending := by
  induction h with
  | registered => exact .nothing nofun
  | taken before ih =>
    rw [window_taken]
    exact .nothing nofun
  | @published events s p before formed ih =>
    have hacc := ih hub.of_append
    rw [window_published, Subscriber.publish, before.filter_eq]
    by_cases hsel : filter.matches p.movement = true
    · rw [if_pos hsel]
      show Accumulated filter p.head _ (some _)
      cases hp : s.pending with
      | none =>
        rw [hp] at hacc
        cases hacc with
        | nothing skipped =>
          refine @Accumulated.merged _ _ _ _ (window events) [] [] p (by simp) (.cons .nil) .nil hsel ?_ ?_
          · simpa using skipped
          · intro q hq
            obtain rfl := List.mem_singleton.1 hq
            exact .refl _
      | some n =>
        rw [hp] at hacc
        cases hacc with
        | @merged n before' span after last split spans follows selected skipped includes =>
          -- what followed `last` was not selected, so nothing did
          have hafter : after = [] := by
            refine List.eq_nil_iff_forall_not_mem.2 fun r hr => ?_
            have htrue := hub events p [] rfl hsel (before' ++ span) last after (by simp [split]) selected r hr
            rw [skipped r (List.mem_append_right _ hr)] at htrue
            cases htrue
          subst hafter
          have hhead : p.source = n.head := follows.eq_of_nil.symm
          refine @Accumulated.merged _ _ _ _ before' (span ++ [last]) [] p (by simp [split]) (spans.snoc hhead) .nil hsel
            (by simpa using skipped) ?_
          intro q hq
          rcases List.mem_append.1 hq with hq | hq
          · exact (Movement.includes_merge_left formed).trans (includes q hq)
          · obtain rfl := List.mem_singleton.1 hq
            exact Movement.includes_merge_right formed
    · rw [if_neg hsel]
      have hskip : filter.matches p.movement = false := Bool.eq_false_iff.2 hsel
      cases hp : s.pending with
      | none =>
        rw [hp] at hacc
        cases hacc with
        | nothing skipped =>
          refine .nothing fun q hq => ?_
          rcases List.mem_append.1 hq with hq | hq
          · exact skipped q hq
          · obtain rfl := List.mem_singleton.1 hq
            exact hskip
      | some n =>
        rw [hp] at hacc
        cases hacc with
        | @merged n before' span after last split spans follows selected skipped includes =>
          refine @Accumulated.merged _ _ _ _ before' span (after ++ [p]) last (by simp [split]) spans (follows.snoc rfl) selected ?_ includes
          intro q hq
          rw [← List.append_assoc] at hq
          rcases List.mem_append.1 hq with hq | hq
          · exact skipped q hq
          · obtain rfl := List.mem_singleton.1 hq
            exact hskip

/-- Every notification delivered covers everything between its two heads, in a run where no selected
movement is published over one that was passed by. -/
theorem Watched.delivered_covers (h : Watched filter openedAt events head s) (hub : Unbroken filter events) :
    ∀ pre n post, events = pre ++ .taken (some n) :: post → Covers filter (window pre) n := by
  induction h with
  | registered => intro pre n post hev; simp at hev
  | @published events s p before formed ih =>
    intro pre n post hev
    rcases List.eq_nil_or_concat post with rfl | ⟨post, x, rfl⟩
    · have := List.append_inj_right' hev rfl
      cases this
    · rw [List.concat_eq_append, ← List.cons_append, ← List.append_assoc] at hev
      exact ih hub.of_append pre n post (List.append_inj_left' hev rfl)
  | @taken events head s before ih =>
    intro pre n post hev
    rcases List.eq_nil_or_concat post with rfl | ⟨post, x, rfl⟩
    · have hlast := List.append_inj_right' hev rfl
      have hpre := List.append_inj_left' hev rfl
      subst hpre
      have hpending : s.pending = some n := by
        have := (List.cons.inj hlast).1
        exact Event.taken.inj this
      have hacc := before.accumulated hub.of_append
      rw [hpending] at hacc
      exact hacc.covers
    · rw [List.concat_eq_append, ← List.cons_append, ← List.append_assoc] at hev
      exact ih hub.of_append pre n post (List.append_inj_left' hev rfl)

end Covers

end IrohLotus.Lotusd

/-! ## A reader that falls behind -/

namespace IrohLotus.Lotusd

open Std IrohLotus.Wire IrohLotus.Wire.Sample IrohLotus.State

def watchingA : ChangeFilter := .of (.namespace ⟨"a", a_ne⟩)

def watchingBoth : ChangeFilter := watchingA.and (.namespace ⟨"b", b_ne⟩)

/-- A movement that set the namespace `a`. -/
def firstMove : Published := ⟨genesisDigest, firstDigest, ⟨∅, ChangeSet.empty.touch ⟨"a", a_ne⟩ none⟩⟩

/-- Then one that set the namespace `b`. -/
def secondMove : Published := ⟨firstDigest, secondDigest, ⟨∅, ChangeSet.empty.touch ⟨"b", b_ne⟩ none⟩⟩

/-- And one that set `a` again. -/
def thirdMove : Published := ⟨secondDigest, thirdDigest, ⟨∅, ChangeSet.empty.touch ⟨"a", a_ne⟩ none⟩⟩

theorem formed_touch_empty (key : NamespaceKey) : (ChangeSet.empty.touch key none).Formed :=
  ChangeSet.Formed.touch (fun k paths hget => by simp [ChangeSet.empty] at hget) key none

theorem watched_two (filter : ChangeFilter) :
    Watched filter genesisDigest [.published firstMove, .published secondMove] secondDigest
      ((Subscriber.registered filter).publish firstMove |>.publish secondMove) :=
  @Watched.published _ _ [.published firstMove] _ secondMove
    (@Watched.published _ _ [] _ firstMove .registered (formed_touch_empty _)) (formed_touch_empty _)

/-- What a reader of both namespaces takes after both movements. -/
def bothMoves : ChangeNotification := ⟨genesisDigest, secondDigest, firstMove.movement.merge secondMove.movement⟩

/-- Two movements it selected are merged, and it is told of both. -/
theorem delivered_covers_bothMoves :
    Unbroken watchingBoth [.published firstMove, .published secondMove, .taken (some bothMoves)] ∧
      Covers watchingBoth [firstMove, secondMove] bothMoves := by
  have hall : ∀ p ∈ [firstMove, secondMove], watchingBoth.matches p.movement = true := by decide +kernel
  have hub : Unbroken watchingBoth [.published firstMove, .published secondMove, .taken (some bothMoves)] := by
    intro pre p post hev _ a q b hwindow _ r hr
    have hmem : r ∈ window pre := by
      rw [hwindow]
      exact List.mem_append_right _ (List.mem_cons_of_mem _ hr)
    rcases pre with _ | ⟨x, _ | ⟨y, _ | ⟨z, pre⟩⟩⟩
    · cases hmem
    · cases hev
      exact hall r (by rw [List.mem_singleton.1 hmem]; exact List.mem_cons_self)
    · cases hev
    · simp at hev
  have htook : ((Subscriber.registered watchingBoth).publish firstMove |>.publish secondMove).take.1 = some bothMoves := by
    decide +kernel
  have hrun := Watched.taken (watched_two watchingBoth)
  rw [htook] at hrun
  exact ⟨hub, Watched.delivered_covers hrun hub [.published firstMove, .published secondMove] _ [] rfl⟩

/-- A reader that takes only after the third movement is told of a span that holds a change to `b`
its notification does not name. -/
theorem not_covers_thirdMove :
    ∃ n s, Watched watchingA genesisDigest
        [.published firstMove, .published secondMove, .published thirdMove, .taken (some n)] thirdDigest s ∧
      n.source = genesisDigest ∧ n.head = thirdDigest ∧ ¬ Covers watchingA [firstMove, secondMove, thirdMove] n := by
  have hrun := (@Watched.published _ _ _ _ thirdMove (watched_two watchingA) (formed_touch_empty _)).taken
  generalize hs : (((Subscriber.registered watchingA).publish firstMove).publish secondMove).publish thirdMove = s at hrun
  have htook : s.take.1 = some ⟨genesisDigest, thirdDigest, firstMove.movement.merge thirdMove.movement⟩ := by
    rw [← hs]; decide +kernel
  rw [htook] at hrun
  refine ⟨_, _, hrun, rfl, rfl, ?_⟩
  rintro ⟨before, span, after, hwindow, -, hskipped, hincludes⟩
  have hfirst : watchingA.matches firstMove.movement = true := by decide +kernel
  have hthird : watchingA.matches thirdMove.movement = true := by decide +kernel
  have hbefore : before = [] := by
    rcases before with _ | ⟨p, before⟩
    · rfl
    · obtain rfl : firstMove = p := (List.cons.inj hwindow).1
      have := hskipped firstMove (by simp)
      rw [hfirst] at this; cases this
  have hafter : after = [] := by
    rcases List.eq_nil_or_concat after with rfl | ⟨after, p, rfl⟩
    · rfl
    · rw [List.concat_eq_append, ← List.append_assoc] at hwindow
      have hw : [firstMove, secondMove] ++ [thirdMove] = before ++ span ++ after ++ [p] := hwindow
      obtain rfl : thirdMove = p := (List.cons.inj (List.append_inj_right' hw rfl)).1
      have := hskipped thirdMove (by simp)
      rw [hthird] at this; cases this
  subst hbefore hafter
  have hspan : span = [firstMove, secondMove, thirdMove] := by simpa using hwindow.symm
  have hinc := (hincludes secondMove (by rw [hspan]; simp)).changes ⟨"b", by decide⟩ none (by decide +kernel)
  revert hinc
  decide +kernel

end IrohLotus.Lotusd
