/-
Where in the ledger a request to the web server points (`lotusweb::location`): how a location is spelled
in a URL, which route of the server (`lotusweb::app`) a path asks for, and what location its captures are
read as. Percent-encoding and the captures' decoding are not in the repository and are parameters.
-/
import IrohLotus.Lib.Uri
import IrohLotus.Wire.PathParse
import IrohLotus.Wire.RoundTrip

namespace IrohLotus.Lotusweb

open Outcome Uri IrohLotus.Wire

/-! ## Routes -/

/-- What a route captured, each under its name. -/
abbrev Captures := List (String × List Char)

/-- A piece of a route: what it spells, a capture of one segment, or a capture of all that is left. -/
inductive Piece where
  | literal (text : List Char)
  | segment (name : String)
  | rest (name : String)

/-- What a route captures of a path, if the path is one of its own. No capture is empty. -/
def captures : List Piece → List Char → Option Captures
  | [], [] => some []
  | [], _ :: _ => none
  | .literal text :: pieces, path => (stripMark text path).bind (captures pieces)
  | .segment name :: pieces, path =>
    let raw := path.takeWhile (· ≠ '/')
    if raw = [] then none else (captures pieces (path.dropWhile (· ≠ '/'))).map ((name, raw) :: ·)
  | .rest name :: pieces, path => if path = [] then none else (captures pieces []).map ((name, path) :: ·)

/-- What serves a route. -/
inductive Handler where
  | home
  | chain
  | create
  | location
  | htmx
  | style
deriving DecidableEq

/-- The routes of the server. -/
def router : List (Handler × List Piece) :=
  [(.home, [.literal "/".toList]), (.chain, [.literal "/chain".toList]), (.create, [.literal "/ns".toList]),
    (.location, [.literal "/ns/".toList, .segment "key"]),
    (.location, [.literal "/ns/".toList, .segment "key", .literal "/".toList, .rest "path"]),
    (.htmx, [.literal "/static/htmx.min.js".toList]), (.style, [.literal "/static/style.css".toList])]

/-- The handler of the route a path is of, with its captures. -/
def dispatch (path : List Char) : Option (Handler × Captures) :=
  router.findSome? fun route => (captures route.2 path).map fun c => (route.1, c)

/-- A segment that is not empty and holds no slash. -/
structure Whole (s : List Char) : Prop where
  nonempty : s ≠ []
  slashless : '/' ∉ s

theorem captures_literal (text path : List Char) : captures [.literal text] path = if path = text then some [] else none := by
  rw [captures]
  by_cases h : path = text
  · have hstrip : stripMark text path = some [] := by
      rw [h, ← stripMark_append text [], List.append_nil]
    rw [if_pos h, hstrip]
    rfl
  · rw [if_neg h]
    cases hstrip : stripMark text path with
    | none => rfl
    | some rest =>
      have hpath := stripMark_eq_some hstrip
      cases rest with
      | nil => exact absurd (hpath.trans (List.append_nil text)) h
      | cons c rest => rfl

theorem captures_segment {name : String} {pieces : List Piece} {s rest : List Char} (h : Whole s) (hrest : Ahead rest) :
    captures (.segment name :: pieces) (s ++ rest) = (captures pieces rest).map ((name, s) :: ·) := by
  obtain ⟨htake, hdrop⟩ := takeWhile_segment h.slashless hrest
  rw [captures, htake, hdrop]
  exact if_neg h.nonempty

/-- Below the namespaces only the location routes are asked. -/
theorem dispatch_ns (s : List Char) : dispatch (['/', 'n', 's', '/'] ++ s) =
    ((captures [.segment "key"] s).map fun c => (Handler.location, c)).or
      ((captures [.segment "key", .literal "/".toList, .rest "path"] s).map fun c => (Handler.location, c)) := by
  have hstrip : stripMark "/ns/".toList (['/', 'n', 's', '/'] ++ s) = some s := rfl
  have hlocation (pieces : List Piece) : captures (.literal "/ns/".toList :: pieces) (['/', 'n', 's', '/'] ++ s) = captures pieces s := by
    rw [captures, hstrip]
    rfl
  have hstatic {text : List Char} (h : ['/', 'n', 's', '/'] ++ s ≠ text) :
      captures [.literal text] (['/', 'n', 's', '/'] ++ s) = none := by
    rw [captures_literal, if_neg h]
  have hhome := @hstatic "/".toList (by simp)
  have hchain := @hstatic "/chain".toList (by simp)
  have hcreate := @hstatic "/ns".toList (by simp)
  have hhtmx := @hstatic "/static/htmx.min.js".toList (by simp)
  have hstyle := @hstatic "/static/style.css".toList (by simp)
  unfold dispatch router
  simp only [List.findSome?_cons, hlocation, hhome, hchain, hcreate, hhtmx, hstyle, Option.map_none]
  cases captures [.segment "key"] s with
  | some c => rfl
  | none => cases captures [.segment "key", .literal "/".toList, .rest "path"] s <;> rfl

/-- A path into one segment is a namespace's. -/
theorem dispatch_key {key : List Char} (h : Whole key) :
    dispatch (['/', 'n', 's', '/'] ++ key) = some (.location, [("key", key)]) := by
  have hkey : captures [.segment "key"] key = some [("key", key)] := by
    have hcaptures := @captures_segment "key" [] key [] h (.inl rfl)
    rwa [List.append_nil] at hcaptures
  rw [dispatch_ns, hkey]
  rfl

/-- A path into two is that of something inside it. -/
theorem dispatch_path {key path : List Char} (h : Whole key) (hpath : path ≠ []) :
    dispatch (['/', 'n', 's', '/'] ++ (key ++ '/' :: path)) = some (.location, [("key", key), ("path", path)]) := by
  have hslash : captures [.segment "key"] (key ++ '/' :: path) = none := by
    rw [captures_segment h (.inr ⟨path, rfl⟩)]
    rfl
  have hrest : captures [.literal "/".toList, .rest "path"] ('/' :: path) = some [("path", path)] := by
    show (if path = [] then none else some [("path", path)]) = _
    rw [if_neg hpath]
  rw [dispatch_ns, hslash, captures_segment h (.inr ⟨path, rfl⟩), hrest]
  rfl

/-- Nothing but the location routes starts below the namespaces, and they start nowhere else. -/
theorem dispatch_location {path : List Char} {captured : Captures} (h : dispatch path = some (.location, captured)) :
    ∃ s, path = ['/', 'n', 's', '/'] ++ s := by
  obtain ⟨route, hroute, hcaptures⟩ := List.exists_of_findSome?_eq_some h
  obtain ⟨c, hc, hpair⟩ := Option.map_eq_some_iff.1 hcaptures
  have hlocation : route.1 = .location := congrArg Prod.fst hpair
  have hmark : ∀ route ∈ router, route.1 = .location → ∃ pieces, route.2 = .literal "/ns/".toList :: pieces := by
    intro route hroute hlocation
    simp only [router, List.mem_cons, List.not_mem_nil, or_false] at hroute
    rcases hroute with rfl | rfl | rfl | rfl | rfl | rfl | rfl
    all_goals first | exact ⟨_, rfl⟩ | cases hlocation
  obtain ⟨pieces, hpieces⟩ := hmark route hroute hlocation
  rw [hpieces, captures] at hc
  obtain ⟨rest, hstrip, -⟩ := Option.bind_eq_some_iff.1 hc
  exact ⟨rest, stripMark_eq_some hstrip⟩

/-! ## Texts of a path -/

/-- What a path is written as is no text that does not read as a path. -/
theorem display_ne {path : SubkeyPath} {text : String} (h : ∀ p, SubkeyPath.fromStr text ≠ .ok p) : path.display ≠ text :=
  fun heq => h path (heq ▸ path.fromStr_toList_display)

theorem not_fromStr_dots : ∀ text ∈ ["", ".", ".."], ∀ path, SubkeyPath.fromStr text ≠ .ok path := by
  have hnone : ∀ text ∈ ["", ".", ".."], (SubkeyPath.fromStr text).toOption = none := by decide
  intro text htext path h
  have hsome := hnone text htext
  rw [h] at hsome
  cases hsome

/-! ## Locations -/

/-- The crates outside the repository: `percent_encoding`, axum's decoding of what a route captures, and
the texts of two errors. -/
class Web where
  utf8PercentEncode : (Char → Bool) → List Char → List Char
  decodeCapture : List Char → Option (List Char)
  invalidUtf8 : String → String
  emptyNamespace : String
  /-- What may stand for itself does. -/
  bare : ∀ set text, (∀ c ∈ text, c.toNat < 128 ∧ set c = false) → utf8PercentEncode set text = text
  /-- What is written is the percent sign, a digit of a byte, or may stand for itself. -/
  escaped : ∀ set text, ∀ c ∈ utf8PercentEncode set text, c = '%' ∨ c.isAlphanum ∨ set c = false
  /-- A capture is decoded to the text it was encoded from, if the percent sign is. -/
  faithful : ∀ set text, set '%' = true → decodeCapture (utf8PercentEncode set text) = some text

variable [Web]

/-- `percent_encoding::CONTROLS`. -/
def CONTROLS (c : Char) : Bool := c.toNat < 0x20 || c.toNat = 0x7f

/-- What is escaped in a URL segment. -/
def SEGMENT (c : Char) : Bool :=
  CONTROLS c ||
    [' ', '"', '#', '%', '&', '\'', '+', '/', '<', '>', '?', '[', '\\', ']', '^', (Char.ofNat 0x60), '\x7b', '|', '\x7d'].contains c

/-- A namespace, and optionally a path inside it. -/
structure Location where
  key : NamespaceKey
  path : Option SubkeyPath
deriving DecidableEq

/-- A text as it stands in a URL. -/
def segment (text : String) : List Char := Web.utf8PercentEncode SEGMENT text.toList

/-- The URL a location is browsed at. -/
def Location.url (location : Location) : List Char :=
  match location.path with
  | none => ['/', 'n', 's', '/'] ++ segment location.key.name
  | some path => ['/', 'n', 's', '/'] ++ (segment location.key.name ++ '/' :: segment path.display)

/-- Why a request could not be served. -/
inductive Error where
  | badRequest (text : String)
deriving DecidableEq

/-- `NamespaceKey::try_new`. -/
def tryNew (name : String) : Except String NamespaceKey := if h : name ≠ "" then .ok ⟨name, h⟩ else .error Web.emptyNamespace

/-- The captures as text: each is decoded, and all of them are. -/
def decodeCaptures : Captures → Except Error (List (String × String))
  | [] => .ok []
  | (name, raw) :: captures => do
    let text ← (Web.decodeCapture raw).elim (.error (.badRequest (Web.invalidUtf8 name))) .ok
    let rest ← decodeCaptures captures
    pure ((name, String.ofList text) :: rest)

/-- The text of a capture. -/
def capture (captures : List (String × String)) (name : String) : Option String :=
  (captures.find? fun c => c.1 = name).map Prod.snd

/-- Reads a location from the captures of a route. -/
def Location.fromRequestParts (raw : Captures) : Res Error Location := do
  let captures ← Res.ofExcept id (decodeCaptures raw)
  let key ← Res.okOr (capture captures "key") (.badRequest "the route names no namespace")
  let key ← Res.ofExcept (fun e => .badRequest ("`" ++ key ++ "` is not a namespace: " ++ e)) (tryNew key)
  match capture captures "path" with
  | none => pure ⟨key, none⟩
  | some path =>
    let path ← (SubkeyPath.fromStr path).mapErr fun e => Error.badRequest ("`" ++ path ++ "` is not a path: " ++ e.display)
    pure ⟨key, some path⟩

/-- What the location routes read of a path; none where another route serves it, or no route. -/
def requested (path : List Char) : Option (Res Error Location) :=
  match dispatch path with
  | some (.location, captures) => some (Location.fromRequestParts captures)
  | _ => none

/-! ## Segments -/

theorem decode_segment (text : String) : Web.decodeCapture (segment text) = some text.toList :=
  Web.faithful SEGMENT text.toList (by decide)

theorem segment_injective {a b : String} (h : segment a = segment b) : a = b := by
  have ha := decode_segment a
  rw [h, decode_segment b] at ha
  exact (String.toList_injective (Option.some.inj ha)).symm

theorem segment_whole {text : String} (h : text ≠ "") : Whole (segment text) := by
  constructor
  · intro hnil
    have hempty : segment "" = [] := Web.bare SEGMENT [] (List.forall_mem_nil _)
    exact h (segment_injective (hnil.trans hempty.symm))
  · intro hslash
    rcases Web.escaped SEGMENT _ _ hslash with h | h | h
    · exact absurd h (by decide)
    · exact absurd h (by decide)
    · exact absurd h (by decide)

/-- Dots stand for themselves, and no other text is written as they are. -/
theorem segment_eq_dots {text dots : String} (hdots : ∀ c ∈ dots.toList, c = '.') : segment text = dots.toList ↔ text = dots := by
  have hbare : segment dots = dots.toList := Web.bare SEGMENT _ fun c hc => by
    rw [hdots c hc]
    decide
  constructor
  · intro h
    exact segment_injective (h.trans hbare.symm)
  · rintro rfl
    exact hbare

/-- A path is written as a segment of its own that is not made of dots. -/
theorem segment_display (path : SubkeyPath) :
    Whole (segment path.display) ∧ segment path.display ≠ ['.'] ∧ segment path.display ≠ ['.', '.'] := by
  have hne : ∀ text ∈ ["", ".", ".."], path.display ≠ text := fun text h => display_ne (not_fromStr_dots text h)
  refine ⟨segment_whole (hne "" (by decide)), fun h => ?_, fun h => ?_⟩
  · exact hne "." (by decide) ((@segment_eq_dots _ path.display "." (by simp)).1 h)
  · exact hne ".." (by decide) ((@segment_eq_dots _ path.display ".." (by simp)).1 h)

/-! ## The way back -/

/-- A client that removes the dot segments of the location's URL and asks for the path it is left with is
answered from the same location. -/
def Location.LeadsBack (location : Location) : Prop := requested (removeDotSegments location.url []) = some (.ok location)

/-- What the captures of a location's own segments are read as. -/
theorem fromRequestParts_key (key : NamespaceKey) : Location.fromRequestParts [("key", segment key.name)] = .ok ⟨key, none⟩ := by
  have hcaptures : decodeCaptures [("key", segment key.name)] = .ok [("key", key.name)] := by
    unfold decodeCaptures
    rw [decode_segment]
    show Except.ok [("key", String.ofList key.name.toList)] = _
    rw [String.ofList_toList]
  have hkey : tryNew key.name = .ok key := dif_pos key.nonempty
  unfold Location.fromRequestParts
  rw [hcaptures]
  show (do
    let key ← Res.ofExcept (fun e => Error.badRequest ("`" ++ key.name ++ "` is not a namespace: " ++ e)) (tryNew key.name)
    pure ⟨key, none⟩ : Res Error Location) = _
  rw [hkey]
  rfl

theorem fromRequestParts_path (key : NamespaceKey) (path : SubkeyPath) :
    Location.fromRequestParts [("key", segment key.name), ("path", segment path.display)] = .ok ⟨key, some path⟩ := by
  have hcaptures : decodeCaptures [("key", segment key.name), ("path", segment path.display)] =
      .ok [("key", key.name), ("path", path.display)] := by
    unfold decodeCaptures
    rw [decode_segment]
    unfold decodeCaptures
    rw [decode_segment]
    show Except.ok [("key", String.ofList key.name.toList), ("path", String.ofList path.display.toList)] = _
    rw [String.ofList_toList, String.ofList_toList]
  have hkey : tryNew key.name = .ok key := dif_pos key.nonempty
  unfold Location.fromRequestParts
  rw [hcaptures]
  show (do
    let key ← Res.ofExcept (fun e => Error.badRequest ("`" ++ key.name ++ "` is not a namespace: " ++ e)) (tryNew key.name)
    let path ← (SubkeyPath.fromStr path.display).mapErr fun e =>
      Error.badRequest ("`" ++ path.display ++ "` is not a path: " ++ e.display)
    pure ⟨key, some path⟩ : Res Error Location) = _
  rw [hkey, path.fromStr_toList_display]
  rfl

theorem requested_of_dispatch {path : List Char} {captured : Captures} (h : dispatch path = some (.location, captured)) :
    requested path = some (Location.fromRequestParts captured) := by
  rw [requested, h]

omit [Web] in
/-- The first segment of a location's URL is kept. -/
theorem removeDotSegments_ns {rest : List Char} (hrest : Ahead rest) :
    removeDotSegments (['/', 'n', 's'] ++ rest) [] = removeDotSegments rest ['/', 'n', 's'] :=
  @removeDotSegments_segment ['n', 's'] rest (by decide) (by decide) (by decide) hrest []

/-- The last segment of a path is kept when it is not made of dots. -/
theorem removeDotSegments_display (path : SubkeyPath) (output : List Char) :
    removeDotSegments ('/' :: segment path.display) output = output ++ '/' :: segment path.display := by
  obtain ⟨hwhole, hone, htwo⟩ := segment_display path
  have h := removeDotSegments_segment hwhole.slashless hone htwo (.inl rfl) output
  rwa [List.append_nil, removeDotSegments_nil] at h

/-- No dots, no change: the path that is asked for is the URL. -/
theorem leadsBack_of_ne {location : Location} (hone : location.key.name ≠ ".") (htwo : location.key.name ≠ "..") :
    location.LeadsBack := by
  obtain ⟨key, path⟩ := location
  have hwhole := segment_whole key.nonempty
  have hone' : segment key.name ≠ ['.'] := fun h => hone ((@segment_eq_dots _ key.name "." (by simp)).1 h)
  have htwo' : segment key.name ≠ ['.', '.'] := fun h => htwo ((@segment_eq_dots _ key.name ".." (by simp)).1 h)
  have hkeep {rest : List Char} (hrest : Ahead rest) : removeDotSegments (['/', 'n', 's', '/'] ++ (segment key.name ++ rest)) [] =
      removeDotSegments rest (['/', 'n', 's', '/'] ++ segment key.name) :=
    (removeDotSegments_ns (.inr ⟨segment key.name ++ rest, rfl⟩)).trans
      (removeDotSegments_segment hwhole.slashless hone' htwo' hrest _)
  cases path with
  | none =>
    have hurl := hkeep (.inl rfl)
    rw [List.append_nil, removeDotSegments_nil] at hurl
    show requested (removeDotSegments (['/', 'n', 's', '/'] ++ segment key.name) []) = _
    rw [hurl, requested_of_dispatch (dispatch_key hwhole), fromRequestParts_key]
  | some path =>
    have hurl := hkeep (.inr ⟨segment path.display, rfl⟩)
    rw [removeDotSegments_display, List.append_assoc] at hurl
    show requested (removeDotSegments (['/', 'n', 's', '/'] ++ (segment key.name ++ '/' :: segment path.display)) []) = _
    rw [hurl, requested_of_dispatch (dispatch_path hwhole (segment_display path).1.nonempty), fromRequestParts_path]

theorem requested_eq_some {path : List Char} {answer : Res Error Location} (h : requested path = some answer) :
    ∃ captured, dispatch path = some (.location, captured) ∧ answer = Location.fromRequestParts captured := by
  unfold requested at h
  split at h
  · rename_i captured heq
    exact ⟨captured, heq, (Option.some.inj h).symm⟩
  · cases h

/-- A segment that one slash stands before is no location. -/
theorem not_requested_segment {s : List Char} (hs : '/' ∉ s) (answer : Res Error Location) : requested ('/' :: s) ≠ some answer := by
  intro h
  obtain ⟨captured, hdispatch, -⟩ := requested_eq_some h
  obtain ⟨rest, hrest⟩ := dispatch_location hdispatch
  refine hs ?_
  rw [(List.cons.inj hrest).2]
  simp

/-- One dot is left out: the path that stands behind it is asked for as a namespace. -/
theorem requested_dot_path {key : NamespaceKey} {path : SubkeyPath} (h : key.name = ".") (hname : path.display ≠ "") :
    requested (removeDotSegments (Location.url ⟨key, some path⟩) []) = some (.ok ⟨⟨path.display, hname⟩, none⟩) := by
  have hdot : segment key.name = ['.'] := (@segment_eq_dots _ key.name "." (by simp)).2 h
  have hurl : removeDotSegments (['/', 'n', 's', '/'] ++ (segment key.name ++ '/' :: segment path.display)) [] =
      ['/', 'n', 's', '/'] ++ segment path.display := by
    rw [hdot]
    refine (removeDotSegments_ns (.inr ⟨'.' :: '/' :: segment path.display, rfl⟩)).trans ?_
    rw [(removeDotSegments_dot _ _).2, removeDotSegments_display]
    rfl
  show requested (removeDotSegments (['/', 'n', 's', '/'] ++ (segment key.name ++ '/' :: segment path.display)) []) = _
  rw [hurl, requested_of_dispatch (dispatch_key (segment_display path).1), fromRequestParts_key ⟨path.display, hname⟩]

theorem not_leadsBack_dot {location : Location} (h : location.key.name = ".") : ¬ location.LeadsBack := by
  obtain ⟨key, path⟩ := location
  have hdot : segment key.name = ['.'] := (@segment_eq_dots _ key.name "." (by simp)).2 h
  intro hback
  unfold Location.LeadsBack at hback
  cases path with
  | none =>
    have hurl : removeDotSegments (['/', 'n', 's', '/'] ++ segment key.name) [] = ['/', 'n', 's', '/'] := by
      rw [hdot]
      exact (removeDotSegments_ns (.inr ⟨['.'], rfl⟩)).trans (removeDotSegments_dot _ []).1
    rw [show removeDotSegments (Location.url ⟨key, none⟩) [] = _ from hurl] at hback
    obtain ⟨captured, hdispatch, -⟩ := requested_eq_some hback
    have hnone : dispatch ['/', 'n', 's', '/'] = none := by decide
    rw [hnone] at hdispatch
    cases hdispatch
  | some path =>
    rw [requested_dot_path h (display_ne (not_fromStr_dots "" (by decide)))] at hback
    have hpaths : none = some path := congrArg Location.path (Except.ok.inj (Option.some.inj hback))
    cases hpaths

/-- Two dots take back the segment before them: what is asked for is no location. -/
theorem not_leadsBack_dots {location : Location} (h : location.key.name = "..") : ¬ location.LeadsBack := by
  obtain ⟨key, path⟩ := location
  have hdots : segment key.name = ['.', '.'] := (@segment_eq_dots _ key.name ".." (by simp)).2 h
  have hdrop : dropSegment ['/', 'n', 's'] = [] := by decide
  intro hback
  unfold Location.LeadsBack at hback
  cases path with
  | none =>
    have hurl : removeDotSegments (['/', 'n', 's', '/'] ++ segment key.name) [] = ['/'] := by
      rw [hdots]
      refine (removeDotSegments_ns (.inr ⟨['.', '.'], rfl⟩)).trans ?_
      rw [(removeDotSegments_dots _ []).1, hdrop]
      rfl
    rw [show removeDotSegments (Location.url ⟨key, none⟩) [] = _ from hurl] at hback
    exact not_requested_segment (by simp) _ hback
  | some path =>
    obtain ⟨hwhole, -, -⟩ := segment_display path
    have hurl : removeDotSegments (['/', 'n', 's', '/'] ++ (segment key.name ++ '/' :: segment path.display)) [] =
        '/' :: segment path.display := by
      rw [hdots]
      refine (removeDotSegments_ns (.inr ⟨'.' :: '.' :: '/' :: segment path.display, rfl⟩)).trans ?_
      rw [(removeDotSegments_dots _ _).2, hdrop, removeDotSegments_display]
      rfl
    rw [show removeDotSegments (Location.url ⟨key, some path⟩) [] = _ from hurl] at hback
    exact not_requested_segment hwhole.slashless _ hback

/-- The URL of a location leads back to it exactly when its namespace is not one dot or two, so that two
locations with such namespaces are never asked for by one path. -/
theorem location_leadsBack_iff :
    (∀ location : Location, location.LeadsBack ↔ location.key.name ≠ "." ∧ location.key.name ≠ "..") ∧
    ∀ a b : Location, a.LeadsBack → b.LeadsBack → removeDotSegments a.url [] = removeDotSegments b.url [] → a = b := by
  constructor
  · intro location
    constructor
    · intro hback
      exact ⟨fun hone => not_leadsBack_dot hone hback, fun htwo => not_leadsBack_dots htwo hback⟩
    · rintro ⟨hone, htwo⟩
      exact leadsBack_of_ne hone htwo
  · intro a b ha hb hurl
    unfold Location.LeadsBack at ha hb
    rw [hurl, hb] at ha
    exact (Except.ok.inj (Option.some.inj ha)).symm

end IrohLotus.Lotusweb

/-! ## The samples -/

namespace IrohLotus.Lotusweb.Sample

open Outcome Uri IrohLotus.Wire

scoped instance web : Web where
  utf8PercentEncode := percentEncode
  decodeCapture := percentDecode
  invalidUtf8 name := "Invalid URL: Cannot parse value at index 0 with value " ++ name
  emptyNamespace := "NamespaceKey is empty."
  bare _ _ h := percentEncode_bare h
  escaped _ _ _ h := percentEncode_chars h
  faithful _ text h := percentDecode_encode h text

theorem dot_ne : "." ≠ "" := by decide
theorem cfg_ne : "cfg" ≠ "" := by decide
theorem cfgPath_ne : [Subkey.key "cfg"] ≠ [] := by decide

/-- The path of one key. -/
def cfgPath : SubkeyPath := ⟨[.key "cfg"], cfgPath_ne⟩

/-- The URL of an entry of the namespace of one dot asks for another namespace. -/
theorem not_leadsBack_dotted : Location.url ⟨⟨".", dot_ne⟩, some cfgPath⟩ = "/ns/./cfg".toList ∧
    requested (removeDotSegments (Location.url ⟨⟨".", dot_ne⟩, some cfgPath⟩) []) = some (.ok ⟨⟨"cfg", cfg_ne⟩, none⟩) ∧
    ¬ Location.LeadsBack ⟨⟨".", dot_ne⟩, some cfgPath⟩ := by
  have hrequested := @requested_dot_path _ ⟨".", dot_ne⟩ cfgPath rfl cfg_ne
  exact ⟨by decide, hrequested, not_leadsBack_dot rfl⟩

end IrohLotus.Lotusweb.Sample
