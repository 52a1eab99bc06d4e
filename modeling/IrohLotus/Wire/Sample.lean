/-
Envelopes to run the development on, each with the digest blake3 gives its canonical CBOR encoding,
and the `Externals` that knows these digests. None of them is signed, so nothing else outside the
repository is asked about them.
-/
import IrohLotus.Wire.Envelope

namespace IrohLotus.Wire.Sample

open Std

theorem a_ne : "a" ≠ "" := by decide

theorem b_ne : "b" ≠ "" := by decide

theorem l_ne : "l" ≠ "" := by decide

theorem n_ne : "n" ≠ "" := by decide

theorem index_ne : [Subkey.index 0] ≠ [] := by decide

theorem keepMinutes_ne : "_lotus_min_keep_minutes" ≠ "" := by decide

def genesisDigest : EnvelopeDigest :=
  ⟨0x4f93b708887770867171b2312c947b5d72487c40a8b11d261abd6989fb297cf5⟩

/-- The start of a chain, with no namespace. -/
def genesis : Envelope := Envelope.new (.init ⟨⟨∅⟩⟩)

def firstDigest : EnvelopeDigest :=
  ⟨0xb3f07cc7dd76d8bd2d887c8832166157ca76ad4feb132490668dd18202a647ff⟩

/-- A namespace set on genesis. -/
def first : Envelope :=
  Envelope.new (.setNamespace ⟨genesisDigest, ⟨"a", a_ne⟩, ⟨.string "1"⟩⟩)

def secondDigest : EnvelopeDigest :=
  ⟨0xa3b4b862225048007f1eb031a50a88212d358928c45ed52059a7c80e94f308c4⟩

/-- The same namespace set again on `first`. -/
def second : Envelope :=
  Envelope.new (.setNamespace ⟨firstDigest, ⟨"a", a_ne⟩, ⟨.string "2"⟩⟩)

def thirdDigest : EnvelopeDigest :=
  ⟨0xb857a4d6e5bf76fb3fd83d2d95ea879258208c4a00174f3730c72884d64f76d8⟩

/-- And again on `second`. -/
def third : Envelope :=
  Envelope.new (.setNamespace ⟨secondDigest, ⟨"a", a_ne⟩, ⟨.string "3"⟩⟩)

def otherDigest : EnvelopeDigest :=
  ⟨0x4e30a0e83d297ee8933491b3762342bb099b44a959cc0329947576a16d31550f⟩

/-- A fork against `first`, which outranks it. -/
def other : Envelope :=
  Envelope.new (.setNamespace ⟨genesisDigest, ⟨"b", b_ne⟩, ⟨.string "1"⟩⟩)

def listedDigest : EnvelopeDigest :=
  ⟨0x292fc68decf753d5b63541cda89be92453931ec9d8c98281a9040dfa1d48c95a⟩

/-- A namespace holding an array of two entries. -/
def listed : Envelope :=
  Envelope.new (.setNamespace ⟨genesisDigest, ⟨"l", l_ne⟩, ⟨.array [.string "x", .string "y"]⟩⟩)

def clearedDigest : EnvelopeDigest :=
  ⟨0x651b8ac49914cd8ba55570076e3dd4bae7a12ff4385608ab6c278f1386005ae3⟩

/-- The first entry of that array cleared. -/
def cleared : Envelope :=
  Envelope.new (.setNamespaceKey ⟨listedDigest, ⟨"l", l_ne⟩, ⟨[.index 0], index_ne⟩, none⟩)

def flooredDigest : EnvelopeDigest :=
  ⟨0xeda4e286ca2a75ea504f5c693c44248b472d4229be4c834314f73d97afd15343⟩

/-- The start of a chain with a compaction floor of an hour. -/
def floored : Envelope :=
  Envelope.new (.init ⟨⟨(∅ : ExtTreeMap NamespaceKey Namespace).insert ⟨"_lotus_min_keep_minutes", keepMinutes_ne⟩ ⟨.int 60⟩⟩⟩)

def raisedDigest : EnvelopeDigest :=
  ⟨0xf4e4bdd3458aecd8f2e8d20bd7a2b20eff3971076f1114da98f6628947fc60e8⟩

/-- That floor raised by five minutes. -/
def raised : Envelope :=
  Envelope.new (.amendNamespaceKey ⟨flooredDigest, ⟨"_lotus_min_keep_minutes", keepMinutes_ne⟩, none,
    .incrementDecrement ⟨5, none, none⟩⟩)

def countedDigest : EnvelopeDigest :=
  ⟨0x41279ab151cdfc99225302b356cacedb60eef81e71fce4f952cc72788c2edc46⟩

/-- A namespace holding an integer, near the largest. -/
def counted : Envelope :=
  Envelope.new (.setNamespace ⟨genesisDigest, ⟨"n", n_ne⟩, ⟨.int 9223372036854775800⟩⟩)

def bumpedDigest : EnvelopeDigest :=
  ⟨0x26685842cd92e84ffe65ef5b0d1a2d9ec4a104a5bfeaafcd024a5836c3f7bf0c⟩

/-- That integer raised past what an `i64` holds, under a ceiling. -/
def bumped : Envelope :=
  Envelope.new (.amendNamespaceKey ⟨countedDigest, ⟨"n", n_ne⟩, none,
    .incrementDecrement ⟨100, none, some 9223372036854775805⟩⟩)

/-- Every sample with its digest, parents before their children. -/
def table : List (SignedPortion × EnvelopeDigest) :=
  [(genesis.toSignedPortion, genesisDigest),
    (first.toSignedPortion, firstDigest),
    (second.toSignedPortion, secondDigest),
    (third.toSignedPortion, thirdDigest),
    (other.toSignedPortion, otherDigest),
    (listed.toSignedPortion, listedDigest),
    (cleared.toSignedPortion, clearedDigest),
    (floored.toSignedPortion, flooredDigest),
    (raised.toSignedPortion, raisedDigest),
    (counted.toSignedPortion, countedDigest),
    (bumped.toSignedPortion, bumpedDigest)]

/-- The contents of the samples. -/
def contents : Set SignedPortion := fun portion => portion ∈ table.map Prod.fst

/-- The digests of the samples; an envelope that is none of them does not encode. -/
scoped instance externals : Externals where
  hash portion := (table.lookup portion).elim (.error .encode) fun digest => .ok digest.hash
  keyHash _ := 0
  verify _ _ _ := false
  keyIdToHex _ := ""
  keyIdFromHex _ := .error "no key is sampled"
  EndpointId := Empty
  RelayUrl := Empty
  SocketAddr := Empty
  CustomAddr := Empty
  endpointIdFromZ32 _ := none
  parseRelay _ := none
  parseIp _ := none
  parseCustom _ := none

/-- How long the encodings of the samples are. -/
def lengths : List (SignedPortion × Nat) :=
  [(genesis.toSignedPortion, 13), (first.toSignedPortion, 54), (second.toSignedPortion, 54), (third.toSignedPortion, 54),
    (other.toSignedPortion, 54), (listed.toSignedPortion, 61), (cleared.toSignedPortion, 54),
    (floored.toSignedPortion, 43), (raised.toSignedPortion, 81), (counted.toSignedPortion, 61), (bumped.toSignedPortion, 68)]

scoped instance encoding : Encoding where
  length portion := (lengths.lookup portion).getD 0

end IrohLotus.Wire.Sample
