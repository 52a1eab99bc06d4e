/-
`lotusctl delete --where`: how an argument is split into its path and its value (`split_where`). The
scan tracks quotes but no brackets; it agrees with the path grammar on every text whose bare keys hold
no quote, and splits there after the path if and only if no bare key holds a `=`.
-/
import IrohLotus.Wire.Msg
import IrohLotus.Wire.PathParse

namespace IrohLotus.Lotusctl

open Outcome Text Wire

/-! ## Splitting -/

/-- What `split_where` knows between two characters: the quote it is inside of, and whether the next
character is escaped. -/
structure Scan where
  quote : Option Char
  escaped : Bool

/-- Outside quotes. -/
def idle : Scan := ⟨none, false⟩

def Scan.step (s : Scan) (c : Char) : Scan :=
  if s.escaped then { s with escaped := false }
  else match s.quote with
    | some opened => if c = '\\' then { s with escaped := true } else if c = opened then { s with quote := none } else s
    | none => if isQuote c then { s with quote := some c } else s

/-- The byte offset of the first `=` outside quotes. -/
def findSplit : Scan → List (Nat × Char) → Option Nat
  | _, [] => none
  | s, (n, c) :: chars => if s.quote.isNone && c = '=' then some n else findSplit (s.step c) chars

/-- Splits an argument at the `=` between its path and its value (`split_where`). -/
def splitWhere {E : Type} (text : String) : Res E (Option (String × String)) :=
  match findSplit idle (charIndices 0 text.toList) with
  | none => .ok none
  | some n => do
    let path ← Res.expect (sliceTo text.toList n) notBoundary
    let value ← Res.expect (sliceFrom text.toList (n + 1)) notBoundary
    .ok (some (String.ofList path, String.ofList value))

/-- `MainError::Other` -/
inductive MainError where
  | other (message : String)

/-- The condition one argument gives, its value read by `parseValue` (in `DeleteCommand::predicate`). -/
def DeleteCommand.condition (parseValue : String → Except MainError Value) (text : String) : Res MainError Match := do
  let split ← splitWhere text
  let (path, value) ← Res.okOr split (.other ("`" ++ text ++ "` is not [PATH]=VALUE, as in id=\"web-1\" or =7"))
  let value ← Res.ofExcept id (parseValue value)
  if path.isEmpty then .ok ⟨none, value⟩
  else do
    let parsed ← Res.mapErr (fun e => .other ("`" ++ path ++ "` is not a path: " ++ e.display)) (SubkeyPath.fromStr path)
    .ok ⟨some parsed, value⟩

/-! ## The scan -/

/-- Inside a quoted key. -/
def within (quote : Char) : Scan := ⟨some quote, false⟩

/-- The scan goes over a text without splitting it. -/
inductive Passes : Scan → List Char → Scan → Prop where
  | nil {s : Scan} : Passes s [] s
  | cons {s s' : Scan} {c : Char} {t : List Char} (h : (s.quote.isNone && c = '=') = false) (rest : Passes (s.step c) t s') :
      Passes s (c :: t) s'

theorem Passes.append {s s' s'' : Scan} {t u : List Char} (h : Passes s t s') (h' : Passes s' u s'') : Passes s (t ++ u) s'' := by
  induction h with
  | nil => exact h'
  | cons h _ ih => exact .cons h (ih h')

theorem Passes.findSplit {s s' : Scan} {t : List Char} (h : Passes s t s') (u : List Char) :
    ∀ n, findSplit s (charIndices n (t ++ u)) = findSplit s' (charIndices (n + size t) u) := by
  induction h with
  | nil => exact fun _ => rfl
  | cons h _ ih =>
    intro n
    rw [List.cons_append, charIndices, Lotusctl.findSplit, h, size_cons, ← Nat.add_assoc]
    exact ih _

/-- Where a text passes, the `=` after it splits. -/
theorem splitWhere_of_passes {E : Type} {text : String} {t v : List Char} (h : Passes idle t idle)
    (htext : text.toList = t ++ '=' :: v) :
    splitWhere text = (.ok (some (String.ofList t, String.ofList v)) : Res E (Option (String × String))) := by
  have hfound : findSplit idle (charIndices 0 (t ++ '=' :: v)) = some (size t) := by
    rw [h.findSplit, Nat.zero_add]
    rfl
  have hvalue : sliceFrom (t ++ '=' :: v) (size t + 1) = some v := sliceFrom_quote t v '='
  rw [splitWhere, htext, hfound]
  dsimp only
  rw [sliceTo_append, hvalue]
  rfl

/-- A character that is neither `=` nor a quote. -/
def Plain (c : Char) : Prop := c ≠ '=' ∧ isQuote c = false

theorem passes_plain : ∀ {t : List Char}, (∀ c ∈ t, Plain c) → Passes idle t idle
  | [], _ => .nil
  | c :: t, h => by
    obtain ⟨hc, hquote⟩ := h c List.mem_cons_self
    have hstep : idle.step c = idle := by
      rw [Scan.step, idle, if_neg Bool.false_ne_true]
      exact if_neg (Bool.eq_false_iff.1 hquote)
    refine .cons (by simp [hc]) ?_
    rw [hstep]
    exact passes_plain fun d hd => h d (List.mem_cons_of_mem c hd)

/-- A character of a quoted key. -/
theorem passes_within {quote c : Char} (hquote : c ≠ quote) (hescape : c ≠ '\\') {t : List Char} {s : Scan}
    (rest : Passes (within quote) t s) : Passes (within quote) (c :: t) s := by
  have hstep : (within quote).step c = within quote := by
    rw [Scan.step, within, if_neg Bool.false_ne_true]
    exact (if_neg hescape).trans (if_neg hquote)
  exact .cons rfl (hstep.symm ▸ rest)

/-- A backslash in a quoted key, and the character after it. -/
theorem passes_escaped (quote c : Char) {t : List Char} {s : Scan} (rest : Passes (within quote) t s) :
    Passes (within quote) ('\\' :: c :: t) s := .cons rfl (.cons rfl rest)

theorem passes_hex {quote : Char} (hquote : isQuote quote) : ∀ {hex : List Char}, (∀ c ∈ hex, isAsciiHexdigit c) →
    Passes (within quote) hex (within quote)
  | [], _ => .nil
  | c :: hex, h => by
    have hc := hexdigit_cases (h c List.mem_cons_self)
    have hne : ∀ d : Char, d.toNat = 34 ∨ d.toNat = 39 ∨ d.toNat = 92 → c ≠ d := by
      rintro d hd rfl
      omega
    have hcquote : c ≠ quote := by rcases isQuote_cases hquote with rfl | rfl <;> exact hne _ (by decide)
    exact passes_within hcquote (hne _ (by decide)) (passes_hex hquote fun d hd => h d (List.mem_cons_of_mem c hd))

theorem passes_escape {quote : Char} (hquote : isQuote quote) {e : List Char} {c : Char} (h : Escape e c) :
    Passes (within quote) ('\\' :: e) (within quote) := by
  cases h with
  | short => exact passes_escaped quote _ .nil
  | unit hhex => exact passes_escaped quote 'u' (passes_hex hquote hhex.digits)
  | pair hhex hhex' =>
    exact passes_escaped quote 'u' ((passes_hex hquote hhex.digits).append
      (passes_escaped quote 'u' (passes_hex hquote hhex'.digits)))

/-- The scan stays inside the quotes for the whole of a quoted key. -/
theorem passes_quoted {quote : Char} (hquote : isQuote quote) {t key : List Char} (h : Quoted quote t key) :
    Passes (within quote) t (within quote) := by
  induction h with
  | nil => exact .nil
  | char hne hescape _ ih => exact passes_within hne hescape ih
  | escape h _ ih => exact (passes_escape hquote h).append ih

theorem plain_of_blank {c : Char} (h : blank c) : Plain c := by
  rcases blank_cases h with rfl | rfl | rfl | rfl <;> exact ⟨by decide, by decide⟩

theorem plain_of_isDigit {c : Char} (h : c.isDigit) : Plain c :=
  ⟨fun he => absurd (he ▸ h) (by decide), isQuote_of_isDigit h⟩

/-- The scan is outside quotes again after a bracket. -/
theorem passes_bracket {t : List Char} {segment : Subkey} (h : Bracket t segment) : Passes idle ('[' :: (t ++ [']'])) idle := by
  have hopen : Passes idle ['['] idle := passes_plain fun c hc => List.mem_singleton.1 hc ▸ ⟨by decide, by decide⟩
  have hclose : Passes idle [']'] idle := passes_plain fun c hc => List.mem_singleton.1 hc ▸ ⟨by decide, by decide⟩
  refine hopen.append (Passes.append ?_ hclose)
  cases h with
  | index hl hr _ hdigits =>
    have hblank : ∀ {s : List Char}, Blank s → Passes idle s idle := fun hs => passes_plain fun c hc => plain_of_blank (hs c hc)
    exact (hblank hl).append ((passes_plain fun c hc => plain_of_isDigit (hdigits c hc)).append (hblank hr))
  | @key l t key r quote hl hr hquote hkey =>
    have hblank : ∀ {s : List Char}, Blank s → Passes idle s idle := fun hs => passes_plain fun c hc => plain_of_blank (hs c hc)
    have hin : Passes idle [quote] (within quote) := by
      rcases isQuote_cases hquote with rfl | rfl <;> exact .cons rfl .nil
    have hout : Passes (within quote) [quote] idle := by
      rcases isQuote_cases hquote with rfl | rfl <;> exact .cons rfl .nil
    have hquoted : Passes idle (quote :: (t ++ quote :: r)) idle :=
      hin.append ((passes_quoted hquote hkey).append (hout.append (hblank hr)))
    exact (hblank hl).append hquoted

/-! ## Paths -/

/-- No bare key holds a quote. -/
def Unquoted (bares : List BareKey) : Prop := ∀ key ∈ bares, ∀ c ∈ key.text, isQuote c = false

/-- No bare key holds a `=`. -/
def Whole (bares : List BareKey) : Prop := ∀ key ∈ bares, '=' ∉ key.text

theorem passes_bare {key : List Char} (hquote : ∀ c ∈ key, isQuote c = false) (h : '=' ∉ key) : Passes idle key idle :=
  passes_plain fun c hc => ⟨fun he => h (he ▸ hc), hquote c hc⟩

/-- A dot, and the bare key after it. -/
theorem passes_dotted {key : List Char} (hquote : ∀ c ∈ key, isQuote c = false) (h : '=' ∉ key) : Passes idle ('.' :: key) idle :=
  .cons rfl (passes_bare hquote h)

theorem passes_rest {closed : Bool} {t : List Char} {segments : List Subkey} {bares : List BareKey}
    (h : Rest closed t segments bares) (hunquoted : Unquoted bares) (hwhole : Whole bares) : Passes idle t idle := by
  induction h with
  | nil => exact .nil
  | @bracket _ t u _ _ _ h _ ih =>
    have hpass := (passes_bracket h).append (ih hunquoted hwhole)
    simpa using hpass
  | dotted h _ ih =>
    obtain ⟨hquote, hunquoted⟩ := List.forall_mem_cons.1 hunquoted
    obtain ⟨hkey, hwhole⟩ := List.forall_mem_cons.1 hwhole
    exact (passes_dotted hquote hkey).append (ih hunquoted hwhole)
  | joined h _ ih =>
    obtain ⟨hquote, hunquoted⟩ := List.forall_mem_cons.1 hunquoted
    obtain ⟨hkey, hwhole⟩ := List.forall_mem_cons.1 hwhole
    exact (passes_bare hquote hkey).append (ih hunquoted hwhole)

/-- The scan goes over a path whose bare keys hold neither quotes nor a `=`. -/
theorem passes_reads {t : List Char} {segments : List Subkey} {bares : List BareKey} (h : ReadsAs t segments bares)
    (hunquoted : Unquoted bares) (hwhole : Whole bares) : Passes idle t idle := by
  cases h with
  | rooted h => exact .cons rfl (passes_rest h hunquoted hwhole)
  | bracket h rest =>
    have hall : Rest false _ _ _ := .bracket h rest
    exact passes_rest hall hunquoted hwhole
  | bare h _ rest =>
    obtain ⟨hquote, hunquoted⟩ := List.forall_mem_cons.1 hunquoted
    obtain ⟨hkey, hwhole⟩ := List.forall_mem_cons.1 hwhole
    exact (passes_bare hquote hkey).append (passes_rest rest hunquoted hwhole)

/-- A text the scan splits before its end. -/
def Splits (t : List Char) : Prop := ∃ a b, t = a ++ '=' :: b ∧ Passes idle a idle

theorem Splits.append {t u : List Char} (h : Passes idle t idle) (h' : Splits u) : Splits (t ++ u) := by
  obtain ⟨a, b, rfl, ha⟩ := h'
  exact ⟨t ++ a, b, (List.append_assoc _ _ _).symm, h.append ha⟩

theorem splits_bare {key : List Char} (hquote : ∀ c ∈ key, isQuote c = false) (h : '=' ∈ key) (u : List Char) :
    Splits (key ++ u) := by
  obtain ⟨a, b, rfl, ha⟩ := List.eq_append_cons_of_mem h
  refine ⟨a, b ++ u, ?_, passes_bare (fun c hc => hquote c (List.mem_append_left _ hc)) ha⟩
  rw [List.append_assoc, List.cons_append]

theorem not_whole_tail {key : BareKey} {bares : List BareKey} (h : ¬Whole (key :: bares)) (hkey : '=' ∉ key.text) : ¬Whole bares :=
  fun hwhole => h (List.forall_mem_cons.2 ⟨hkey, hwhole⟩)

/-- A bare key that may hold a `=`, and what follows it. -/
theorem splits_key {key : BareKey} {u : List Char} {bares : List BareKey} (hquote : ∀ c ∈ key.text, isQuote c = false)
    (hrest : ¬Whole bares → Splits u) (h : ¬Whole (key :: bares)) : Splits (key.text ++ u) := by
  by_cases hkey : '=' ∈ key.text
  · exact splits_bare hquote hkey u
  · exact (hrest (not_whole_tail h hkey)).append (passes_bare hquote hkey)

theorem splits_rest {closed : Bool} {t : List Char} {segments : List Subkey} {bares : List BareKey}
    (h : Rest closed t segments bares) (hunquoted : Unquoted bares) (hwhole : ¬Whole bares) : Splits t := by
  induction h with
  | nil => exact absurd (List.forall_mem_nil _) hwhole
  | @bracket _ t u _ _ _ h _ ih =>
    have hsplit := (ih hunquoted hwhole).append (passes_bracket h)
    simpa using hsplit
  | dotted h _ ih =>
    obtain ⟨hquote, hunquoted⟩ := List.forall_mem_cons.1 hunquoted
    have hdot : Passes idle ['.'] idle := .cons rfl .nil
    exact (splits_key hquote (ih hunquoted) hwhole).append hdot
  | joined h _ ih =>
    obtain ⟨hquote, hunquoted⟩ := List.forall_mem_cons.1 hunquoted
    exact splits_key hquote (ih hunquoted) hwhole

/-- A path with a `=` in a bare key is split before its end. -/
theorem splits_reads {t : List Char} {segments : List Subkey} {bares : List BareKey} (h : ReadsAs t segments bares)
    (hunquoted : Unquoted bares) (hwhole : ¬Whole bares) : Splits t := by
  cases h with
  | rooted h =>
    have hdollar : Passes idle ['$'] idle := .cons rfl .nil
    exact (splits_rest h hunquoted hwhole).append hdollar
  | bracket h rest =>
    have hall : Rest false _ _ _ := .bracket h rest
    exact splits_rest hall hunquoted hwhole
  | bare h _ rest =>
    obtain ⟨hquote, hunquoted⟩ := List.forall_mem_cons.1 hunquoted
    exact splits_key hquote (splits_rest rest hunquoted) hwhole

theorem toList_argument (t v : String) : (t ++ "=" ++ v).toList = t.toList ++ '=' :: v.toList := by
  rw [String.toList_append, String.toList_append, List.append_assoc]
  rfl

/-- Where no bare key holds a quote, the split is after the path if and only if none holds a `=`. -/
theorem splitWhere_reads {E : Type} {t : String} {segments : List Subkey} {bares : List BareKey}
    (h : ReadsAs t.toList segments bares) (hunquoted : Unquoted bares) (v : String) :
    (splitWhere (t ++ "=" ++ v) : Res E _) = .ok (some (t, v)) ↔ Whole bares := by
  constructor
  · intro hsplit
    by_contra hwhole
    obtain ⟨a, b, ht, ha⟩ := splits_reads h hunquoted hwhole
    have htext : (t ++ "=" ++ v).toList = a ++ '=' :: (b ++ '=' :: v.toList) := by
      rw [toList_argument, ht, List.append_assoc, List.cons_append]
    rw [splitWhere_of_passes ha htext] at hsplit
    have hpath : String.ofList a = t := (Prod.mk.inj (Option.some.inj (Except.ok.inj hsplit))).1
    have hlength := congrArg List.length ht
    rw [← hpath, String.toList_ofList, List.length_append, List.length_cons] at hlength
    omega
  · intro hwhole
    rw [splitWhere_of_passes (passes_reads h hunquoted hwhole) (toList_argument t v), String.ofList_toList, String.ofList_toList]

/-- The condition of an argument that is split after its path is on that path. -/
theorem DeleteCommand.condition_of_split {parseValue : String → Except MainError Value} {t v : String} {path : SubkeyPath}
    {value : Value} (hsplit : splitWhere (t ++ "=" ++ v) = (.ok (some (t, v)) : Res MainError _))
    (hpath : SubkeyPath.fromStr t = .ok path) (hvalue : parseValue v = .ok value) :
    DeleteCommand.condition parseValue (t ++ "=" ++ v) = .ok ⟨some path, value⟩ := by
  have hne : ¬t.isEmpty = true := fun hempty => by
    rw [String.isEmpty_iff.1 hempty] at hpath
    cases hpath
  rw [condition, hsplit, Res.ok_bind, Res.okOr_some, Res.ok_bind]
  simp only [hvalue, Res.ofExcept_ok, Res.ok_bind, hpath, Res.mapErr_ok]
  exact if_neg hne

/-- The bare keys that are written of a path hold no quotes. -/
theorem unquoted_bareKeys (segments : List Subkey) : Unquoted (bareKeys segments) := by
  intro key hkey
  obtain ⟨segment, -, hsegment⟩ := List.mem_filterMap.1 hkey
  cases segment with
  | index i => cases hsegment
  | key name =>
    dsimp only at hsegment
    split at hsegment
    · next hbare =>
      cases hsegment
      exact (bare_of_isBare hbare).2.1
    · cases hsegment

/-- `t=v` is split after `t`, and its condition is on `path`. -/
structure Addresses (t v : String) (path : SubkeyPath) : Prop where
  split : (splitWhere (t ++ "=" ++ v) : Res MainError _) = .ok (some (t, v))
  condition : ∀ parseValue value, parseValue v = .ok value →
    DeleteCommand.condition parseValue (t ++ "=" ++ v) = .ok ⟨some path, value⟩

theorem addresses_iff {t : String} {path : SubkeyPath} {bares : List BareKey} (hpath : SubkeyPath.fromStr t = .ok path)
    (h : ReadsAs t.toList path.segments bares) (hunquoted : Unquoted bares) (v : String) : Addresses t v path ↔ Whole bares := by
  refine ⟨fun haddresses => (splitWhere_reads h hunquoted v).1 haddresses.split, fun hwhole => ?_⟩
  have hsplit := (splitWhere_reads (E := MainError) h hunquoted v).2 hwhole
  exact ⟨hsplit, fun _ _ hvalue => DeleteCommand.condition_of_split hsplit hpath hvalue⟩

/-- What is written of a path is addressed if and only if no key in it that is written bare holds a `=`; and so
is every text that reads as a path and has no quote in its bare keys. -/
theorem splitWhere_addresses :
    (∀ (path : SubkeyPath) (v : String), Addresses path.display v path ↔ Whole (bareKeys path.segments)) ∧
      ∀ (t v : String) (path : SubkeyPath), SubkeyPath.fromStr t = .ok path →
        ∃ bares, ReadsAs t.toList path.segments bares ∧ (Unquoted bares → (Addresses t v path ↔ Whole bares)) := by
  constructor
  · intro path v
    exact addresses_iff path.fromStr_toList_display path.reads_display (unquoted_bareKeys _) v
  · intro t v path hpath
    obtain ⟨bares, h⟩ := (SubkeyPath.fromStr_ensures t).of_ok hpath
    exact ⟨bares, h, fun hunquoted => addresses_iff hpath h hunquoted v⟩

/-- `['a=.b']`: the key is quoted, for its dot. -/
def quotedPath : SubkeyPath := ⟨[.key "a=.b"], List.cons_ne_nil _ _⟩

theorem quotedPath_addresses : Addresses quotedPath.display "1" quotedPath := by
  have hbares : bareKeys quotedPath.segments = [] := by decide
  obtain ⟨bares, h, haddresses⟩ := splitWhere_addresses.2 quotedPath.display "1" quotedPath quotedPath.fromStr_toList_display
  obtain rfl : bares = [] := hbares ▸ quotedPath.reads_display.unique h
  exact (haddresses (List.forall_mem_nil _)).2 (List.forall_mem_nil _)

/-- `a=b`: written bare, and split inside its key. -/
def barePath : SubkeyPath := ⟨[.key "a=b"], List.cons_ne_nil _ _⟩

theorem barePath_split : (splitWhere (barePath.display ++ "=" ++ "1") : Res MainError _) ≠ .ok (some (barePath.display, "1")) := by
  intro hsplit
  have hwhole := (splitWhere_reads barePath.reads_display (unquoted_bareKeys _) "1").1 hsplit
  have hbares : bareKeys barePath.segments = [⟨['a', '=', 'b'], false⟩] := by decide
  rw [hbares] at hwhole
  exact hwhole _ (List.mem_singleton_self _) (by decide)

end IrohLotus.Lotusctl
