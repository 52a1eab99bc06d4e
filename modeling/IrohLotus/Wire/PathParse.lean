/-
`from_str` reads exactly the paths of the looser grammar, and never panics; so it is the documented
one where no bare key stands directly after a closing bracket. What is written of a path is a path of
the grammar, and reads back as the path.
-/
import IrohLotus.Wire.PathGrammar

namespace IrohLotus.Wire

open Outcome Text

/-! ## Bare keys -/

/-- A text that a dot or a bracket begins, or none at all. -/
def Ends (s : List Char) : Prop := Stops (fun c => !structural c) s

theorem ends_nil : Ends [] := stops_nil _

theorem ends_cons {c : Char} {s : List Char} : Ends (c :: s) ↔ structural c = true := by
  rw [Ends, stops_cons, Bool.not_eq_false']

theorem structural_cases {c : Char} (h : structural c) : c = '.' ∨ c = '[' := by simpa [structural] using h

theorem Bare.not_ends {key : List Char} (h : Bare key) (u : List Char) : ¬Ends (key ++ u) := by
  obtain ⟨c, key, rfl⟩ := List.exists_cons_of_ne_nil h.nonempty
  intro hends
  have hc := h.free c List.mem_cons_self
  rw [ends_cons.1 hends] at hc
  cases hc

/-- A first bare key is not taken for a root. -/
theorem Bare.not_root {key : List Char} (h : Bare key) (hdollar : key ≠ ['$']) (u : List Char) :
    ∀ v, key ++ u = '$' :: v → ¬Ends v := by
  intro v hv
  obtain ⟨c, key, rfl⟩ := List.exists_cons_of_ne_nil h.nonempty
  obtain ⟨rfl, rfl⟩ := List.cons.inj hv
  have hkey : key ≠ [] := fun he => hdollar (he ▸ rfl)
  exact Bare.not_ends ⟨hkey, fun c hc => h.free c (List.mem_cons_of_mem _ hc)⟩ u

theorem Bare.not_structural {key : List Char} (h : Bare key) : ∀ c ∈ key, (!structural c) = true := fun c hc => by
  rw [h.free c hc]
  rfl

/-- Where a bare key ends is seen in the text. -/
theorem Bare.unique {key key' u u' : List Char} (h : Bare key) (h' : Bare key') (hu : Ends u) (hu' : Ends u')
    (heq : key ++ u = key' ++ u') : key = key' ∧ u = u' := by
  have hkey : key = key' := by
    rw [← takeWhile_append h.not_structural hu, heq, takeWhile_append h'.not_structural hu']
  exact ⟨hkey, List.append_cancel_left (hkey ▸ heq)⟩

/-- A bare key is read up to what ends it. -/
theorem readKey_append {key u : List Char} (h : Bare key) (hu : Ends u) (text : String) :
    readKey text (key ++ u) = .ok (.key (String.ofList key), u) := by
  have hne : ¬key.isEmpty = true := by
    rw [List.isEmpty_iff]
    exact h.nonempty
  rw [readKey, splitAt_find, takeWhile_append h.not_structural hu, dropWhile_append h.not_structural hu, Res.expect_some,
    Res.ok_bind]
  exact if_neg hne

theorem readKey_ensures (text : String) (body : List Char) :
    (readKey text body).Ensures fun read =>
      ∃ key, Bare key ∧ Ends read.2 ∧ body = key ++ read.2 ∧ read.1 = .key (String.ofList key) := by
  rw [readKey, splitAt_find, Res.expect_some, Res.ok_bind]
  dsimp only
  split
  · trivial
  · next hne =>
    rw [List.isEmpty_iff] at hne
    refine ⟨_, ⟨hne, fun c hc => ?_⟩, stops_dropWhile _ body, List.takeWhile_append_dropWhile.symm, rfl⟩
    simpa using List.mem_takeWhile_imp hc

/-! ## Segments -/

section Segment

variable (text : String) (rooted first : Bool)

theorem readSegment_bracket {t : List Char} {segment : Subkey} (h : Bracket t segment) (u : List Char) :
    readSegment text rooted first ('[' :: (t ++ ']' :: u)) = .ok (segment, u) := by
  rw [readSegment, stripPrefix_cons, if_pos rfl]
  exact parseBracket_append h u text

theorem readSegment_dotted {key u : List Char} (h : Bare key) (hu : Ends u) (hdot : (first && !rooted) = false) :
    readSegment text rooted first ('.' :: (key ++ u)) = .ok (.key (String.ofList key), u) := by
  rw [readSegment, stripPrefix_cons, if_neg (by decide)]
  simp only [stripPrefix_cons, if_pos, hdot]
  exact readKey_append h hu text

theorem readSegment_bare {key u : List Char} (h : Bare key) (hu : Ends u) :
    readSegment text rooted first (key ++ u) = .ok (.key (String.ofList key), u) := by
  obtain ⟨c, key, rfl⟩ := List.exists_cons_of_ne_nil h.nonempty
  have hc := h.free c List.mem_cons_self
  have hopen : c ≠ '[' := fun he => by rw [he] at hc; cases hc
  have hdot : c ≠ '.' := fun he => by rw [he] at hc; cases hc
  rw [readSegment, List.cons_append, stripPrefix_cons, if_neg hopen]
  simp only [stripPrefix_cons, if_neg hdot]
  exact readKey_append h hu text

/-- A segment that is read is a bracket or a bare key, after a dot or without one. -/
theorem readSegment_ensures (rest : List Char) :
    (readSegment text rooted first rest).Ensures fun read =>
      (∃ t, rest = '[' :: (t ++ ']' :: read.2) ∧ Bracket t read.1) ∨
        ∃ key, Bare key ∧ Ends read.2 ∧ read.1 = .key (String.ofList key) ∧
          (rest = key ++ read.2 ∨ rest = '.' :: (key ++ read.2) ∧ (first && !rooted) = false) := by
  unfold readSegment
  split
  · next inner hopen =>
    refine (parseBracket_ensures inner text).mono ?_
    rintro read ⟨t, rfl, h⟩
    exact .inl ⟨t, stripPrefix_eq_some hopen, h⟩
  · split
    · next body hdot =>
      split
      · trivial
      · next hfirst =>
        refine (readKey_ensures text body).mono ?_
        rintro read ⟨key, hkey, hends, rfl, hread⟩
        exact .inr ⟨key, hkey, hends, hread, .inr ⟨stripPrefix_eq_some hdot, Bool.eq_false_of_not_eq_true hfirst⟩⟩
    · refine (readKey_ensures text rest).mono ?_
      rintro read ⟨key, hkey, hends, hrest, hread⟩
      exact .inr ⟨key, hkey, hends, hread, .inl hrest⟩

end Segment

/-! ## The loop -/

theorem Rest.ends {u : List Char} {segments : List Subkey} {bares : List BareKey} (h : Rest false u segments bares) : Ends u := by
  cases h with
  | nil => exact ends_nil
  | bracket => exact ends_cons.2 rfl
  | dotted => exact ends_cons.2 rfl

theorem Rest.mono {closed : Bool} {u : List Char} {segments : List Subkey} {bares : List BareKey}
    (h : Rest closed u segments bares) : Rest true u segments bares := by
  cases h with
  | nil => exact .nil
  | bracket h rest => exact .bracket h rest
  | dotted h rest => exact .dotted h rest
  | joined h rest => exact .joined h rest

theorem Rest.of_ends {u : List Char} {segments : List Subkey} {bares : List BareKey} (h : Rest true u segments bares)
    (hu : Ends u) : Rest false u segments bares := by
  cases h with
  | nil => exact .nil
  | bracket h rest => exact .bracket h rest
  | dotted h rest => exact .dotted h rest
  | joined h rest => exact absurd hu (h.not_ends _)

theorem fromStrLoop_nil (text : String) (rooted first : Bool) (fuel : Nat) (segments : List Subkey) :
    fromStrLoop text rooted (fuel + 1) first segments [] = .ok segments := rfl

/-- One turn of the loop. -/
theorem fromStrLoop_cons (text : String) (rooted first : Bool) (fuel : Nat) (segments : List Subkey) {rest : List Char}
    (hne : rest ≠ []) : fromStrLoop text rooted (fuel + 1) first segments rest =
      readSegment text rooted first rest >>= fun read => fromStrLoop text rooted fuel false (segments ++ [read.1]) read.2 := by
  have hempty : ¬rest.isEmpty = true := by
    rw [List.isEmpty_iff]
    exact hne
  rw [fromStrLoop, if_neg hempty]

/-- The loop reads what is left of a path. -/
theorem fromStrLoop_rest {closed : Bool} {t : List Char} {segments : List Subkey} {bares : List BareKey}
    (h : Rest closed t segments bares) (text : String) (rooted : Bool) : ∀ (fuel : Nat) (first : Bool) (before : List Subkey),
      t.length < fuel → (first && !rooted) = false →
        fromStrLoop text rooted fuel first before t = .ok (before ++ segments) := by
  induction h with
  | nil =>
    intro fuel first before hfuel _
    obtain ⟨fuel, rfl⟩ := Nat.exists_eq_succ_of_ne_zero (Nat.ne_of_gt hfuel)
    rw [fromStrLoop_nil, List.append_nil]
  | @bracket _ t u segment segments _ h rest ih =>
    intro fuel first before hfuel hfirst
    obtain ⟨fuel, rfl⟩ := Nat.exists_eq_succ_of_ne_zero (Nat.ne_of_gt (Nat.zero_lt_of_lt hfuel))
    have hlt : u.length < fuel := by
      simp only [List.length_cons, List.length_append] at hfuel
      omega
    rw [fromStrLoop_cons _ _ _ _ _ (List.cons_ne_nil _ _), readSegment_bracket text rooted first h u, Res.ok_bind,
      ih fuel false _ hlt rfl, List.append_assoc]
    rfl
  | @dotted _ key u segments _ h rest ih =>
    intro fuel first before hfuel hfirst
    obtain ⟨fuel, rfl⟩ := Nat.exists_eq_succ_of_ne_zero (Nat.ne_of_gt (Nat.zero_lt_of_lt hfuel))
    have hlt : u.length < fuel := by
      simp only [List.length_cons, List.length_append] at hfuel
      omega
    rw [fromStrLoop_cons _ _ _ _ _ (List.cons_ne_nil _ _), readSegment_dotted text rooted first h rest.ends hfirst, Res.ok_bind,
      ih fuel false _ hlt rfl, List.append_assoc]
    rfl
  | @joined key u segments _ h rest ih =>
    intro fuel first before hfuel _
    obtain ⟨fuel, rfl⟩ := Nat.exists_eq_succ_of_ne_zero (Nat.ne_of_gt (Nat.zero_lt_of_lt hfuel))
    have hpos : 0 < key.length := List.length_pos_of_ne_nil h.nonempty
    have hlt : u.length < fuel := by
      simp only [List.length_append] at hfuel
      omega
    have hne : key ++ u ≠ [] := fun he => h.nonempty (List.append_eq_nil_iff.1 he).1
    rw [fromStrLoop_cons _ _ _ _ _ hne, readSegment_bare text rooted first h rest.ends, Res.ok_bind, ih fuel false _ hlt rfl,
      List.append_assoc]
    rfl

theorem fromStrLoop_ensures (text : String) (rooted : Bool) : ∀ (fuel : Nat) (first : Bool) (before : List Subkey)
    (rest : List Char), rest.length < fuel → (first && !rooted) = false →
      (fromStrLoop text rooted fuel first before rest).Ensures fun out =>
        ∃ segments bares, Rest true rest segments bares ∧ out = before ++ segments
  | 0, _, _, _, hfuel, _ => absurd hfuel (Nat.not_lt_zero _)
  | fuel + 1, first, before, [], _, _ => ⟨[], [], .nil, (List.append_nil before).symm⟩
  | fuel + 1, first, before, c :: rest, hfuel, hfirst => by
    rw [fromStrLoop_cons _ _ _ _ _ (List.cons_ne_nil _ _)]
    refine (readSegment_ensures text rooted first (c :: rest)).bind ?_
    rintro ⟨segment, after⟩ (⟨t, hrest, h⟩ | ⟨key, hkey, hends, hsegment, hrest⟩)
    · have hlength := congrArg List.length hrest
      simp only [List.length_cons, List.length_append] at hlength hfuel
      refine (fromStrLoop_ensures text rooted fuel false _ after (by omega) rfl).mono ?_
      rintro out ⟨segments, bares, hafter, hout⟩
      refine ⟨segment :: segments, bares, hrest ▸ .bracket h hafter, ?_⟩
      rw [hout, List.append_assoc]
      rfl
    · dsimp only at hsegment hends hrest
      have hpos : 0 < key.length := List.length_pos_of_ne_nil hkey.nonempty
      have hlt : after.length < fuel := by
        rcases hrest with hrest | ⟨hrest, -⟩
        all_goals
          have hlength := congrArg List.length hrest
          simp only [List.length_cons, List.length_append] at hlength hfuel
          omega
      refine (fromStrLoop_ensures text rooted fuel false _ after hlt rfl).mono ?_
      rintro out ⟨segments, bares, hafter, hout⟩
      have hafter := hafter.of_ends hends
      have hsegments : out = before ++ (.key (String.ofList key) :: segments) := by
        rw [hout, hsegment, List.append_assoc]
        rfl
      rcases hrest with hrest | ⟨hrest, -⟩
      · rw [hrest]
        exact ⟨_, _, .joined hkey hafter, hsegments⟩
      · rw [hrest]
        exact ⟨_, _, .dotted hkey hafter, hsegments⟩

/-! ## Paths -/

theorem ends_iff {u : List Char} : Ends u ↔ (u.isEmpty || u.head?.any structural) = true := by
  cases u with
  | nil => exact iff_of_true ends_nil rfl
  | cons c u => exact ends_cons

/-- A root is taken off. -/
theorem root_dollar {u : List Char} (h : Ends u) : root ('$' :: u) = (u, true) := by
  rw [root, stripPrefix_cons, if_pos rfl]
  exact if_pos (ends_iff.1 h)

/-- Anything else stays as it is. -/
theorem root_of_not {text : List Char} (h : ∀ u, text = '$' :: u → ¬Ends u) : root text = (text, false) := by
  unfold root
  split
  · next u hstrip => exact if_neg fun hends => h u (stripPrefix_eq_some hstrip) (ends_iff.2 hends)
  · rfl

theorem SubkeyPath.fromStr_eq {text : String} {rest : List Char} {rooted : Bool} (h : root text.toList = (rest, rooted)) :
    SubkeyPath.fromStr text = fromStrLoop text rooted (rest.length + 1) true [] rest >>= fun segments =>
      if hne : segments ≠ [] then .ok ⟨segments, hne⟩ else Res.fail .empty := by
  simp only [SubkeyPath.fromStr, h]

/-- An unrooted path from its first segment on. -/
theorem SubkeyPath.fromStr_unrooted {text : String} {after : List Char} {segment : Subkey} {segments : List Subkey}
    {closed : Bool} {bares : List BareKey} (hroot : root text.toList = (text.toList, false)) (hne : text.toList ≠ [])
    (hread : readSegment text false true text.toList = .ok (segment, after)) (hrest : Rest closed after segments bares)
    (hlt : after.length < text.toList.length) :
    SubkeyPath.fromStr text = .ok ⟨segment :: segments, List.cons_ne_nil _ _⟩ := by
  rw [fromStr_eq hroot, fromStrLoop_cons _ _ _ _ _ hne, hread, Res.ok_bind, fromStrLoop_rest hrest text false _ _ _ hlt rfl,
    Res.ok_bind]
  exact dif_pos (List.cons_ne_nil _ _)

/-- Every path is read, as the segments it denotes. -/
theorem ReadsAs.fromStr {text : String} {segments : List Subkey} {bares : List BareKey} (h : ReadsAs text.toList segments bares) :
    ∃ hne, SubkeyPath.fromStr text = .ok ⟨segments, hne⟩ := by
  generalize htext : text.toList = t at h
  cases h with
  | @rooted u _ _ h hne =>
    have hroot : root text.toList = (u, true) := htext ▸ root_dollar h.ends
    refine ⟨hne, ?_⟩
    rw [SubkeyPath.fromStr_eq hroot, fromStrLoop_rest h text true _ _ _ (Nat.lt_succ_self _) rfl, Res.ok_bind]
    exact dif_pos hne
  | @bracket t u segment segments _ h rest =>
    have hroot : root text.toList = (text.toList, false) := root_of_not fun u hu => by rw [htext] at hu; cases hu
    refine ⟨List.cons_ne_nil _ _, SubkeyPath.fromStr_unrooted hroot ?_ (htext ▸ readSegment_bracket text false true h u) rest ?_⟩
    · rw [htext]
      exact List.cons_ne_nil _ _
    · rw [htext, List.length_cons, List.length_append, List.length_cons]
      omega
  | @bare key u segments _ h hdollar rest =>
    have hpos : 0 < key.length := List.length_pos_of_ne_nil h.nonempty
    have hroot : root text.toList = (text.toList, false) := root_of_not (htext ▸ h.not_root hdollar u)
    refine ⟨List.cons_ne_nil _ _, SubkeyPath.fromStr_unrooted hroot ?_ (htext ▸ readSegment_bare text false true h rest.ends) rest ?_⟩
    · rw [htext]
      exact fun he => h.nonempty (List.append_eq_nil_iff.1 he).1
    · rw [htext, List.length_append]
      omega

/-- What is read is a path, and reading never panics. -/
theorem SubkeyPath.fromStr_ensures (text : String) :
    (SubkeyPath.fromStr text).Ensures fun path => ∃ bares, ReadsAs text.toList path.segments bares := by
  by_cases hroot : ∃ u, text.toList = '$' :: u ∧ Ends u
  · obtain ⟨u, htext, hends⟩ := hroot
    rw [fromStr_eq (htext ▸ root_dollar hends)]
    refine (fromStrLoop_ensures text true _ true [] u (Nat.lt_succ_self _) rfl).bind ?_
    rintro _ ⟨segments, bares, hrest, rfl⟩
    split
    · next hne => exact ⟨bares, htext ▸ .rooted (hrest.of_ends hends) hne⟩
    · trivial
  · have hnot : ∀ u, text.toList = '$' :: u → ¬Ends u := fun u hu hends => hroot ⟨u, hu, hends⟩
    rw [fromStr_eq (root_of_not hnot)]
    by_cases hempty : text.toList = []
    · rw [hempty, fromStrLoop_nil, Res.ok_bind]
      trivial
    rw [fromStrLoop_cons _ _ _ _ _ hempty]
    refine Res.Ensures.bind (Q := fun segments => segments ≠ [] ∧ ∃ bares, ReadsAs text.toList segments bares) ?_ ?_
    · refine (readSegment_ensures text false true text.toList).bind ?_
      rintro ⟨segment, after⟩ (⟨t, htext, h⟩ | ⟨key, hkey, hends, hsegment, htext⟩)
      · have hlt : after.length < text.toList.length := by
          rw [htext]
          simp only [List.length_cons, List.length_append]
          omega
        refine (fromStrLoop_ensures text false _ false _ after hlt rfl).mono ?_
        rintro _ ⟨segments, bares, hrest, rfl⟩
        exact ⟨List.cons_ne_nil _ _, bares, htext ▸ .bracket h hrest⟩
      · dsimp only at hsegment hends htext
        rcases htext with htext | ⟨-, hdot⟩
        · have hpos : 0 < key.length := List.length_pos_of_ne_nil hkey.nonempty
          have hlt : after.length < text.toList.length := by
            rw [htext, List.length_append]
            omega
          have hdollar : key ≠ ['$'] := fun hkey => hnot after (by rw [htext, hkey]; rfl) hends
          refine (fromStrLoop_ensures text false _ false _ after hlt rfl).mono ?_
          rintro _ ⟨segments, bares, hrest, rfl⟩
          rw [htext, hsegment]
          exact ⟨List.cons_ne_nil _ _, _, .bare hkey hdollar (hrest.of_ends hends)⟩
        · cases hdot
    · rintro segments ⟨hne, bares, h⟩
      rw [dif_pos hne]
      exact ⟨bares, h⟩

/-! ## The two grammars -/

theorem Tail.rest {t : List Char} {segments : List Subkey} (h : Tail t segments) :
    ∃ bares, (∀ key ∈ bares, key.joined = false) ∧ Rest false t segments bares := by
  induction h with
  | nil => exact ⟨[], List.forall_mem_nil _, .nil⟩
  | bracket h _ ih =>
    obtain ⟨bares, hbares, hrest⟩ := ih
    exact ⟨bares, hbares, .bracket h hrest.mono⟩
  | @dotted key u segments h _ ih =>
    obtain ⟨bares, hbares, hrest⟩ := ih
    exact ⟨⟨key, false⟩ :: bares, List.forall_mem_cons.2 ⟨rfl, hbares⟩, .dotted h hrest⟩

theorem Rest.tail {closed : Bool} {t : List Char} {segments : List Subkey} {bares : List BareKey}
    (h : Rest closed t segments bares) (hbares : ∀ key ∈ bares, key.joined = false) : Tail t segments := by
  induction h with
  | nil => exact .nil
  | bracket h _ ih => exact .bracket h (ih hbares)
  | dotted h _ ih => exact .dotted h (ih (List.forall_mem_cons.1 hbares).2)
  | joined h _ ih => cases (List.forall_mem_cons.1 hbares).1

/-- The documented paths are those of the looser grammar where a dot introduces every bare key but the first. -/
theorem spells_iff {t : List Char} {segments : List Subkey} :
    Spells t segments ↔ ∃ bares, ReadsAs t segments bares ∧ ∀ key ∈ bares, key.joined = false := by
  constructor
  · intro h
    cases h with
    | rooted h hne =>
      obtain ⟨bares, hbares, hrest⟩ := h.rest
      exact ⟨bares, .rooted hrest hne, hbares⟩
    | bracket h rest =>
      obtain ⟨bares, hbares, hrest⟩ := rest.rest
      exact ⟨bares, .bracket h hrest.mono, hbares⟩
    | @bare key u segments h hroot rest =>
      obtain ⟨bares, hbares, hrest⟩ := rest.rest
      exact ⟨⟨key, false⟩ :: bares, .bare h hroot hrest, List.forall_mem_cons.2 ⟨rfl, hbares⟩⟩
  · rintro ⟨bares, h, hbares⟩
    cases h with
    | rooted h hne => exact .rooted (h.tail hbares) hne
    | bracket h rest => exact .bracket h (rest.tail hbares)
    | bare h hroot rest => exact .bare h hroot (rest.tail (List.forall_mem_cons.1 hbares).2)

theorem Bracket.unique {t t' u u' : List Char} {segment segment' : Subkey} (h : Bracket t segment) (h' : Bracket t' segment')
    (heq : t ++ ']' :: u = t' ++ ']' :: u') : u = u' := by
  have hread := parseBracket_append h u ""
  rw [heq, parseBracket_append h' u' ""] at hread
  exact (Prod.mk.inj (Except.ok.inj hread)).2.symm

/-- A text has its bare keys in one way only. -/
theorem Rest.unique {closed : Bool} {t : List Char} {segments : List Subkey} {bares : List BareKey}
    (h : Rest closed t segments bares) : ∀ {closed' : Bool} {segments' : List Subkey} {bares' : List BareKey},
      Rest closed' t segments' bares' → bares' = bares := by
  induction h with
  | nil =>
    intro _ _ _ h'
    generalize ht : [] = t' at h'
    cases h' with
    | nil => rfl
    | bracket => cases ht
    | dotted => cases ht
    | joined h' => exact absurd (List.append_eq_nil_iff.1 ht.symm).1 h'.nonempty
  | bracket h _ ih =>
    intro _ _ _ h'
    generalize ht : '[' :: _ = t' at h'
    cases h' with
    | nil => cases ht
    | bracket h' rest' =>
      obtain rfl := h.unique h' (List.cons.inj ht).2
      exact ih rest'
    | dotted => cases ht
    | joined h' => exact absurd (ht ▸ ends_cons.2 rfl) (h'.not_ends _)
  | dotted h rest ih =>
    intro _ _ _ h'
    generalize ht : '.' :: _ = t' at h'
    cases h' with
    | nil => cases ht
    | bracket => cases ht
    | dotted h' rest' =>
      obtain ⟨rfl, rfl⟩ := h.unique h' rest.ends rest'.ends (List.cons.inj ht).2
      rw [ih rest']
    | joined h' => exact absurd (ht ▸ ends_cons.2 rfl) (h'.not_ends _)
  | @joined key u _ _ h rest ih =>
    intro _ _ _ h'
    generalize ht : key ++ u = t' at h'
    cases h' with
    | nil => exact absurd (List.append_eq_nil_iff.1 ht).1 h.nonempty
    | bracket => exact absurd (ht ▸ ends_cons.2 rfl) (h.not_ends _)
    | dotted => exact absurd (ht ▸ ends_cons.2 rfl) (h.not_ends _)
    | joined h' rest' =>
      obtain ⟨rfl, rfl⟩ := h.unique h' rest.ends rest'.ends ht
      rw [ih rest']

theorem ReadsAs.unique {t : List Char} {segments segments' : List Subkey} {bares bares' : List BareKey}
    (h : ReadsAs t segments bares) (h' : ReadsAs t segments' bares') : bares' = bares := by
  cases h with
  | rooted h =>
    generalize ht : '$' :: _ = t' at h'
    cases h' with
    | rooted h' => exact h.unique ((List.cons.inj ht).2 ▸ h')
    | bracket => cases ht
    | bare h' hdollar => exact absurd h.ends (h'.not_root hdollar _ _ ht.symm)
  | bracket h rest =>
    generalize ht : '[' :: _ = t' at h'
    cases h' with
    | rooted => cases ht
    | bracket h' rest' =>
      obtain rfl := h.unique h' (List.cons.inj ht).2
      exact rest.unique rest'
    | bare h' => exact absurd (ht ▸ ends_cons.2 rfl) (h'.not_ends _)
  | @bare key u _ _ h hdollar rest =>
    generalize ht : key ++ u = t' at h'
    cases h' with
    | rooted h' => exact absurd h'.ends (h.not_root hdollar _ _ ht)
    | bracket => exact absurd (ht ▸ ends_cons.2 rfl) (h.not_ends _)
    | bare h' _ rest' =>
      obtain ⟨rfl, rfl⟩ := h.unique h' rest.ends rest'.ends ht
      rw [rest.unique rest']

/-- Whether `text` is accepted exactly where the documented grammar has it, and read as it denotes. -/
def FollowsGrammar (text : String) : Prop :=
  ∀ path : SubkeyPath, SubkeyPath.fromStr text = .ok path ↔ Spells text.toList path.segments

theorem not_followsGrammar {text : String} (h : Joins text.toList) : ¬FollowsGrammar text := by
  intro hfollows
  obtain ⟨segments, bares, hreads, key, hmem, hjoined⟩ := h
  obtain ⟨hne, hread⟩ := hreads.fromStr
  obtain ⟨bares', hreads', hbares'⟩ := spells_iff.1 ((hfollows ⟨segments, hne⟩).1 hread)
  rw [hreads'.unique hreads] at hmem
  rw [hbares' key hmem] at hjoined
  cases hjoined

/-- Reading a path never panics. It follows the documented grammar on a text if and only if the text is not a
path but for a bare key directly after a closing bracket. -/
theorem SubkeyPath.fromStr_followsGrammar_iff (text : String) :
    (SubkeyPath.fromStr text).Returns (fun _ => True) ∧ (FollowsGrammar text ↔ ¬Joins text.toList) := by
  refine ⟨(fromStr_ensures text).returns, fun hfollows hjoins => not_followsGrammar hjoins hfollows, fun hjoins path => ?_⟩
  constructor
  · intro hread
    obtain ⟨bares, hreads⟩ := (fromStr_ensures text).of_ok hread
    refine spells_iff.2 ⟨bares, hreads, fun key hkey => Bool.eq_false_of_not_eq_true fun hjoined => ?_⟩
    exact hjoins ⟨path.segments, bares, hreads, key, hkey, hjoined⟩
  · intro hspells
    obtain ⟨bares, hreads, -⟩ := spells_iff.1 hspells
    obtain ⟨_, hread⟩ := hreads.fromStr
    exact hread

/-- `a[0]b`: accepted, although no dot introduces its second key. -/
theorem not_followsGrammar_joined : ¬FollowsGrammar "a[0]b" := by
  have hbare : ∀ c, structural c = false → Bare [c] := fun c hc =>
    ⟨List.cons_ne_nil _ _, fun d hd => List.mem_singleton.1 hd ▸ hc⟩
  have hindex : Bracket ([] ++ (['0'] ++ [])) (.index (UInt32.ofNat (numeral 10 ['0']))) :=
    .index (List.forall_mem_nil _) (List.forall_mem_nil _) (List.cons_ne_nil _ _) (by simp) (by decide)
  have hreads : ReadsAs "a[0]b".toList [.key "a", .index 0, .key "b"] [⟨['a'], false⟩, ⟨['b'], true⟩] :=
    .bare (hbare 'a' rfl) (by decide) (.bracket hindex (.joined (hbare 'b' rfl) .nil))
  exact not_followsGrammar ⟨_, _, hreads, ⟨['b'], true⟩, List.mem_cons_of_mem _ (List.mem_singleton_self _), rfl⟩

/-! ## What is written -/

/-- The keys of a path that are written bare. -/
def bareKeys (segments : List Subkey) : List BareKey :=
  segments.filterMap fun
    | .key name => if Subkey.isBare name.toList then some ⟨name.toList, false⟩ else none
    | .index _ => none

/-- The digits a control character is written with. -/
def controlDigits (n : Nat) : List Char := (Nat.toDigits 16 n).leftpad 4 '0'

theorem controlDigits_spec {n : Nat} (h : n < 0xa0) : Hex4 (controlDigits n) ∧ numeral 16 (controlDigits n) = n := by
  have hall : ∀ n < 0xa0, (controlDigits n).length = 4 ∧ (controlDigits n).all isAsciiHexdigit = true ∧
      numeral 16 (controlDigits n) = n := by decide +kernel
  obtain ⟨hlength, hdigits, hvalue⟩ := hall n h
  exact ⟨⟨hlength, List.all_eq_true.1 hdigits⟩, hvalue⟩

theorem isControl_lt {c : Char} (h : isControl c) : c.toNat < 0xa0 := by
  simp only [isControl, Bool.or_eq_true, Bool.and_eq_true, decide_eq_true_eq] at h
  omega

/-- A character of a quoted key is written as the grammar spells it. -/
theorem quoted_escape (c : Char) {t key : List Char} (h : Quoted '\'' t key) : Quoted '\'' (escape c ++ t) (c :: key) := by
  have hshort : ∀ e, (e, c) ∈ escapes → Quoted '\'' (['\\', e] ++ t) (c :: key) := fun e he =>
    .escape (e := [e]) (.short he) h
  unfold escape
  split
  · next hc =>
    subst hc
    exact hshort _ (by decide)
  · next hquote =>
    split
    · next hc =>
      subst hc
      exact hshort _ (by decide)
    · next hescape =>
      split
      · next hc => exact hshort _ (hc ▸ by decide)
      split
      · next hc => exact hshort _ (hc ▸ by decide)
      split
      · next hc => exact hshort _ (hc ▸ by decide)
      split
      · next hc => exact hshort _ (hc ▸ by decide)
      split
      · next hc => exact hshort _ (hc ▸ by decide)
      split
      · next hcontrol =>
        have hlt := isControl_lt hcontrol
        obtain ⟨hhex, hvalue⟩ := controlDigits_spec hlt
        have hescape : Escape ('u' :: controlDigits c.toNat) (Char.ofNat (numeral 16 (controlDigits c.toNat))) := by
          refine .unit hhex ?_ ?_
          all_goals
            rw [hvalue]
            simp only [highSurrogate, lowSurrogate, Bool.and_eq_true, decide_eq_true_eq]
            omega
        rw [hvalue, Char.ofNat_toNat] at hescape
        exact .escape hescape h
      · exact .char hquote hescape h

theorem quoted_flatMap : ∀ key : List Char, Quoted '\'' (key.flatMap escape) key
  | [] => .nil
  | c :: key => quoted_escape c (quoted_flatMap key)

theorem bare_of_isBare {key : List Char} (h : Subkey.isBare key) :
    Bare key ∧ (∀ c ∈ key, isQuote c = false) ∧ stripPrefix '$' key = none := by
  simp only [Subkey.isBare, Bool.and_eq_true, Bool.not_eq_true', List.isEmpty_eq_false_iff, Option.isSome_eq_false_iff,
    Option.isNone_iff_eq_none, List.any_eq_false] at h
  obtain ⟨⟨hne, hdollar⟩, hfree⟩ := h
  have hnot : ∀ c ∈ key, ∀ d ∈ ['.', '[', ']', '\'', '"', '\\'], c ≠ d := by
    rintro c hc d hd rfl
    exact hfree c hc (by simp [hd])
  refine ⟨⟨hne, fun c hc => ?_⟩, fun c hc => ?_, hdollar⟩
  · refine Bool.eq_false_of_not_eq_true fun hs => ?_
    rcases structural_cases hs with rfl | rfl <;> exact hnot _ hc _ (by decide) rfl
  · refine Bool.eq_false_of_not_eq_true fun hq => ?_
    rcases isQuote_cases hq with rfl | rfl <;> exact hnot _ hc _ (by decide) rfl

theorem bracket_index (i : UInt32) : Bracket (Nat.toDigits 10 i.toNat) (.index i) := by
  have hdigits : ∀ c ∈ Nat.toDigits 10 i.toNat, c.isDigit := fun c hc => Nat.isDigit_of_mem_toDigits (by decide) (by decide) hc
  have hlt : numeral 10 (Nat.toDigits 10 i.toNat) < 2 ^ 32 := by
    rw [numeral_toDigits]
    exact i.toNat_lt
  have h := Bracket.index (List.forall_mem_nil _) (List.forall_mem_nil _) Nat.toDigits_ne_nil hdigits hlt
  rwa [numeral_toDigits, UInt32.ofNat_toNat, List.append_nil, List.nil_append] at h

theorem bracket_key (name : String) : Bracket ('\'' :: (name.toList.flatMap escape ++ ['\''])) (.key name) := by
  have h := Bracket.key (List.forall_mem_nil _) (List.forall_mem_nil _) (by decide) (quoted_flatMap name.toList)
  rwa [String.ofList_toList] at h

/-- A segment as it is written after another. -/
def Subkey.written (segment : Subkey) : List Char := (if segment.isDotted then ['.'] else []) ++ segment.display

/-- What is written after the first segment is a tail of the grammar. -/
theorem rest_written : ∀ segments : List Subkey, Rest false (segments.flatMap Subkey.written) segments (bareKeys segments)
  | [] => .nil
  | .index i :: segments => by
    have h : Rest false _ _ _ := .bracket (bracket_index i) (rest_written segments).mono
    simpa [Subkey.written, Subkey.isDotted, Subkey.display, bareKeys] using h
  | .key name :: segments => by
    by_cases hbare : Subkey.isBare name.toList
    · have h : Rest false _ _ _ := .dotted (bare_of_isBare hbare).1 (rest_written segments)
      simpa [Subkey.written, Subkey.isDotted, Subkey.display, bareKeys, hbare] using h
    · have h : Rest false _ _ _ := .bracket (bracket_key name) (rest_written segments).mono
      simpa [Subkey.written, Subkey.isDotted, Subkey.display, bareKeys, hbare] using h

theorem flatMap_zipIdx : ∀ (segments : List Subkey) (n : Nat), 0 < n →
    ((segments.zipIdx n).flatMap fun (segment, i) =>
      (if 0 < i ∧ segment.isDotted then ['.'] else []) ++ segment.display) = segments.flatMap Subkey.written
  | [], _, _ => rfl
  | segment :: segments, n, hn => by
    rw [List.zipIdx_cons, List.flatMap_cons, flatMap_zipIdx segments (n + 1) (Nat.succ_pos n), List.flatMap_cons]
    simp [Subkey.written, hn]

/-- A path is written from its first segment, without a dot. -/
theorem SubkeyPath.toList_display {path : SubkeyPath} {segment : Subkey} {segments : List Subkey}
    (h : path.segments = segment :: segments) : path.display.toList = segment.display ++ segments.flatMap Subkey.written := by
  rw [SubkeyPath.display, String.toList_ofList, h, List.zipIdx_cons, List.flatMap_cons, flatMap_zipIdx segments _ Nat.one_pos]
  simp

/-- What is written of a path is a path of the grammar. -/
theorem SubkeyPath.reads_display (path : SubkeyPath) : ReadsAs path.display.toList path.segments (bareKeys path.segments) := by
  obtain ⟨segment, segments, hpath⟩ := List.exists_cons_of_ne_nil path.nonempty
  have hrest := rest_written segments
  rw [toList_display hpath, hpath]
  cases segment with
  | index i =>
    have h := ReadsAs.bracket (bracket_index i) hrest.mono
    simpa [Subkey.display, bareKeys] using h
  | key name =>
    by_cases hbare : Subkey.isBare name.toList
    · obtain ⟨hkey, -, hdollar⟩ := bare_of_isBare hbare
      have hroot : name.toList ≠ ['$'] := fun he => by
        rw [he] at hdollar
        cases hdollar
      have h := ReadsAs.bare hkey hroot hrest
      simpa [Subkey.display, bareKeys, hbare] using h
    · have h := ReadsAs.bracket (bracket_key name) hrest.mono
      simpa [Subkey.display, bareKeys, hbare] using h

theorem SubkeyPath.fromStr_toList_display (path : SubkeyPath) : SubkeyPath.fromStr path.display = .ok path := by
  obtain ⟨_, hread⟩ := path.reads_display.fromStr
  exact hread

/-- A path reads back from its text, and two paths are never written alike. -/
theorem SubkeyPath.display_roundTrip :
    (∀ path : SubkeyPath, SubkeyPath.fromStr path.display = .ok path) ∧ Function.Injective SubkeyPath.display := by
  refine ⟨fromStr_toList_display, fun path path' h => ?_⟩
  have hread := fromStr_toList_display path
  rw [h, fromStr_toList_display path'] at hread
  exact (Except.ok.inj hread).symm

end IrohLotus.Wire
