/-
What goes on the wire comes off it the same. For each type the tree it is serialized as reads back as
the value, in either format and however a canonical writer ordered the maps in it; so an envelope
decodes to itself, and its encoding is its own.
-/
import IrohLotus.Lib.Cbor
import IrohLotus.Wire.Codec
import IrohLotus.Wire.Sample

namespace IrohLotus.Wire

open Std Bytes Serde

/-! ## Hex -/

theorem nibble_hexDigit {n : Nat} (h : n < 16) : nibble (hexDigit n) = some n := by
  have hall : ∀ n : Fin 16, nibble (hexDigit n) = some n.val := by decide
  exact hall ⟨n, h⟩

theorem unhex_hexOf : ∀ blob : Blob, unhex (hexOf blob) = some blob
  | [] => rfl
  | byte :: rest => by
    have hlt : byte.toNat < 256 := byte.toNat_lt
    have hhex : hexOf (byte :: rest) = hexDigit (byte.toNat / 16) :: hexDigit (byte.toNat % 16) :: hexOf rest := rfl
    rw [hhex, unhex, nibble_hexDigit (by omega), nibble_hexDigit (by omega), unhex_hexOf rest]
    have hbyte : byte.toNat / 16 * 16 + byte.toNat % 16 = byte.toNat := by omega
    simp only [Option.bind_eq_bind, Option.bind_some, hbyte, UInt8.ofNat_toNat]
    rfl

theorem length_hexOf : ∀ blob : Blob, (hexOf blob).length = 2 * blob.length
  | [] => rfl
  | byte :: rest => by
    have hhex : hexOf (byte :: rest) = hexDigit (byte.toNat / 16) :: hexDigit (byte.toNat % 16) :: hexOf rest := rfl
    rw [hhex, List.length_cons, List.length_cons, length_hexOf rest, List.length_cons]
    omega

theorem stripMark_append : ∀ mark s : List Char, stripMark mark (mark ++ s) = some s
  | [], s => rfl
  | c :: mark, s => by
    rw [List.cons_append, stripMark, if_pos rfl]
    exact stripMark_append mark s

/-! ## Fixed-width bytes -/

variable {human : Bool}

/-- A mark that is stripped off was in front. -/
theorem stripMark_eq_some : ∀ {mark s rest : List Char}, stripMark mark s = some rest → s = mark ++ rest
  | [], s, rest, h => Option.some.inj h
  | c :: mark, d :: s, rest, h => by
    rw [stripMark] at h
    split at h
    · rename_i heq
      rw [heq, stripMark_eq_some h, List.cons_append]
    · cases h
  | _ :: _, [], rest, h => by cases h

theorem reads_byteArray {n : Nat} (mark : String) {blob : Blob} (hlen : blob.length = n) :
    Reads (serializeByteArray human mark blob) (byteArray human n mark) blob := by
  intro t ht
  unfold serializeByteArray at ht
  cases human with
  | true =>
    cases ht
    simp only [byteArray, if_true, String.toList_ofList, stripMark_append, Option.bind_eq_bind, Option.bind_some, length_hexOf, hlen,
      unhex_hexOf]
  | false =>
    cases ht
    simp [byteArray, hlen]

/-- Bits written as bytes read back. -/
theorem reads_bits {α : Type} (width : Nat) (mark : String) (b : BitVec (8 * width)) (f : BitVec (8 * width) → α) :
    Reads (serializeByteArray human mark (ofNumber width b.toNat))
      (fun t => (byteArray human width mark t).map fun bytes => f (BitVec.ofNat (8 * width) (toNumber bytes))) (f b) := by
  intro t ht
  simp only [reads_byteArray mark (length_ofNumber width _) t ht, Option.map_some, ofNat_toNumber_ofNumber]

theorem reads_envelopeDigest (digest : EnvelopeDigest) :
    Reads (digest.serialize human) (EnvelopeDigest.deserialize human) digest :=
  reads_bits 32 "ed:" digest.hash EnvelopeDigest.mk

theorem reads_keyId (id : KeyId) : Reads (id.serialize human) (KeyId.deserialize human) id :=
  reads_bits 32 "" id.hash KeyId.mk

theorem reads_ed25519PublicKey (key : Ed25519PublicKey) :
    Reads (key.serialize human) (Ed25519PublicKey.deserialize human) key :=
  reads_bits 32 "" key.bytes Ed25519PublicKey.mk

theorem reads_ed25519Signature (signature : Ed25519Signature) :
    Reads (signature.serialize human) (Ed25519Signature.deserialize human) signature :=
  reads_bits 64 "" signature.bytes Ed25519Signature.mk

/-! ## Integers -/

theorem reads_i64 (n : Int64) : Reads (.int n.toInt) readI64 n := by
  intro t ht
  have hn : -2 ^ 63 ≤ n.toInt ∧ n.toInt < 2 ^ 63 := ⟨n.le_toInt, n.toInt_lt⟩
  unfold readI64
  rw [reads_int hn t ht, Option.map_some, Int64.ofInt_toInt]

theorem reads_u32 (n : UInt32) : Reads (.int n.toNat) readU32 n := by
  intro t ht
  have hn : (0 : Int) ≤ n.toNat ∧ (n.toNat : Int) < 2 ^ 32 := ⟨by omega, by exact_mod_cast n.toNat_lt⟩
  unfold readU32
  rw [reads_int hn t ht, Option.map_some, Int.toNat_natCast, UInt32.ofNat_toNat]

/-! ## Enums -/

/-- A tagged tree reads as its variant, over what its payload became. -/
theorem deserializeVariant_of_reordered (variants : List Name) {variant : Name} {value t : Tree}
    (hname : variants.find? (fun v => v.name = variant.name) = some variant)
    (hnumber : variants.find? (fun v => (v.number : Int) = variant.number) = some variant) (hlt : variant.number < 2 ^ 64)
    (ht : Reordered (serializeVariant human variant value) t) :
    ∃ value', deserializeVariant human variants t = some (variant.number, value') ∧ Reordered value value' := by
  cases human with
  | true =>
    have hfields : Tree.field true ⟨0, "type"⟩ (serializeVariant true variant value) = some (.text variant.name) ∧
        Tree.field true ⟨0, "value"⟩ (serializeVariant true variant value) = some value := ⟨rfl, rfl⟩
    obtain ⟨type, htype, hr⟩ := ht.field hfields.1
    obtain ⟨value', hvalue, hr'⟩ := ht.field hfields.2
    cases hr
    refine ⟨value', ?_, hr'⟩
    unfold deserializeVariant
    simp only [if_true, htype, Option.bind_some, Tree.readText, hvalue, hname, Option.bind_eq_bind]
    rfl
  | false =>
    cases ht with
    | map hps hperm =>
      cases hps with
      | cons hk hv hrest =>
        cases hrest
        cases hk
        obtain rfl := List.singleton_perm.1 hperm
        refine ⟨_, ?_, hv⟩
        have hlt' : (variant.number : Int) < 2 ^ 64 := by exact_mod_cast hlt
        have htag : (Tree.int variant.number).readInt 0 (2 ^ 64) = some (variant.number : Int) := by
          simp only [Tree.readInt, hlt', Int.natCast_nonneg, and_self, if_true]
        unfold deserializeVariant
        simp only [Bool.false_eq_true, if_false, htag, Option.bind_eq_bind, Option.bind_some, hnumber]
        rfl

/-! ## Collecting entries -/

section Collect

variable {K V : Type} [Ord K] [TransOrd K] [LawfulEqOrd K]

theorem getElem?_collect_of_not_mem {k : K} : ∀ {l : List (K × V)} {m : ExtTreeMap K V}, k ∉ l.map Prod.fst →
    (l.foldl (fun m e => m.insert e.1 e.2) m)[k]? = m[k]?
  | [], m, _ => rfl
  | e :: l, m, h => by
    rw [List.map_cons, List.mem_cons, not_or] at h
    rw [List.foldl_cons, getElem?_collect_of_not_mem h.2, ExtTreeMap.getElem?_insert,
      if_neg fun heq => h.1 (LawfulEqOrd.eq_of_compare heq).symm]

theorem getElem?_collect_of_mem {k : K} {v : V} : ∀ {l : List (K × V)} {m : ExtTreeMap K V}, (l.map Prod.fst).Nodup →
    (k, v) ∈ l → (l.foldl (fun m e => m.insert e.1 e.2) m)[k]? = some v
  | e :: l, m, hl, h => by
    rw [List.map_cons, List.nodup_cons] at hl
    rw [List.foldl_cons]
    rcases List.mem_cons.1 h with rfl | h
    · rw [getElem?_collect_of_not_mem hl.1, ExtTreeMap.getElem?_insert_self]
    · exact getElem?_collect_of_mem hl.2 h

/-- The entries of a map, in any order, make the map. -/
theorem collect_of_perm {m : ExtTreeMap K V} {l : List (K × V)} (h : l.Perm m.toList) :
    l.foldl (fun m e => m.insert e.1 e.2) ∅ = m := by
  have hkeys : (m.toList.map Prod.fst).Nodup := by
    rw [ExtTreeMap.map_fst_toList_eq_keys]
    exact ExtTreeMap.distinct_keys.imp fun h => by simpa using h
  have hnodup : (l.map Prod.fst).Nodup := (h.map Prod.fst).nodup_iff.2 hkeys
  refine ExtTreeMap.ext_getElem? fun k => ?_
  cases hk : m[k]? with
  | some v => exact getElem?_collect_of_mem hnodup (h.mem_iff.2 (ExtTreeMap.mem_toList_iff_getElem?_eq_some.2 hk))
  | none =>
    rw [getElem?_collect_of_not_mem fun hmem => ?_, ExtTreeMap.getElem?_empty]
    obtain ⟨e, he, rfl⟩ := List.mem_map.1 hmem
    have := ExtTreeMap.mem_toList_iff_getElem?_eq_some.1 (h.mem_iff.1 he)
    rw [hk] at this
    cases this

end Collect

namespace Entries

variable {V : Type}

/-- What collecting entries into a map makes of it. -/
def gather (l : Entries V) (map : Entries V) : Entries V := l.foldl (fun map entry => Entries.insert map entry.1 entry.2) map

theorem Sorted.gathered : ∀ {l map : Entries V}, map.Sorted → (gather l map).Sorted
  | [], _, h => h
  | e :: l, map, h => by
    show (gather l (map.insert e.1 e.2)).Sorted
    exact Sorted.gathered h.insert

theorem get_gather_of_not_mem {name : String} : ∀ {l map : Entries V}, name ∉ l.map Prod.fst →
    (gather l map).get name = map.get name
  | [], map, _ => rfl
  | e :: l, map, h => by
    rw [List.map_cons, List.mem_cons, not_or] at h
    show (gather l (map.insert e.1 e.2)).get name = _
    rw [get_gather_of_not_mem h.2, get_insert, if_neg (Ne.symm h.1)]

theorem get_gather_of_mem {name : String} {v : V} : ∀ {l map : Entries V}, (l.map Prod.fst).Nodup → (name, v) ∈ l →
    (gather l map).get name = some v
  | e :: l, map, hl, h => by
    rw [List.map_cons, List.nodup_cons] at hl
    show (gather l (map.insert e.1 e.2)).get name = _
    rcases List.mem_cons.1 h with rfl | h
    · rw [get_gather_of_not_mem hl.1, get_insert, if_pos rfl]
    · exact get_gather_of_mem hl.2 h

/-- The entries of a sorted map, in any order, make the map. -/
theorem collect_of_perm {entries l : Entries V} (hs : entries.Sorted) (h : l.Perm entries) : gather l [] = entries := by
  have hnodup : (l.map Prod.fst).Nodup := (h.map Prod.fst).nodup_iff.2 (hs.imp fun hlt => hlt.ne)
  have hnil : Sorted ([] : Entries V) := List.Pairwise.nil
  refine hnil.gathered.ext hs fun name => ?_
  cases hname : entries.get name with
  | some v => exact get_gather_of_mem hnodup (h.mem_iff.2 (mem_of_get hname))
  | none =>
    rw [get_gather_of_not_mem fun hmem => ?_]
    · rfl
    · rw [(h.map Prod.fst).mem_iff, ← isSome_get, hname] at hmem
      cases hmem

end Entries

/-! ## Keys and paths -/

theorem reads_publicKey (key : PublicKey) : Reads (key.serialize human) (PublicKey.deserialize human) key := by
  intro t ht
  cases key with
  | ed25519 key =>
    obtain ⟨value, hvalue, hr⟩ := deserializeVariant_of_reordered [⟨1, "ed25519"⟩] (by decide) (by decide) (by decide) ht
    unfold PublicKey.deserialize
    rw [hvalue]
    simp only [Option.bind_eq_bind, Option.bind_some, reads_ed25519PublicKey key _ hr]
    rfl

theorem reads_signature (signature : Signature) :
    Reads (signature.serialize human) (Signature.deserialize human) signature := by
  intro t ht
  cases signature with
  | ed25519 signature =>
    obtain ⟨value, hvalue, hr⟩ := deserializeVariant_of_reordered [⟨1, "ed25519"⟩] (by decide) (by decide) (by decide) ht
    unfold Signature.deserialize
    rw [hvalue]
    simp only [Option.bind_eq_bind, Option.bind_some, reads_ed25519Signature signature _ hr]
    rfl

theorem reads_subkey (segment : Subkey) : Reads (segment.serialize human) (Subkey.deserialize human) segment := by
  intro t ht
  cases segment with
  | key name =>
    obtain ⟨value, hvalue, hr⟩ := deserializeVariant_of_reordered [⟨1, "key"⟩, ⟨2, "index"⟩]
      (by decide) (by decide) (by decide) ht
    unfold Subkey.deserialize
    rw [hvalue]
    simp only [Option.bind_eq_bind, Option.bind_some, reads_text name _ hr]
    rfl
  | index i =>
    obtain ⟨value, hvalue, hr⟩ := deserializeVariant_of_reordered [⟨1, "key"⟩, ⟨2, "index"⟩]
      (by decide) (by decide) (by decide) ht
    unfold Subkey.deserialize
    rw [hvalue]
    simp only [Option.bind_eq_bind, Option.bind_some, reads_u32 i _ hr]
    rfl

theorem reads_subkeyPath (path : SubkeyPath) : Reads (path.serialize human) (SubkeyPath.deserialize human) path := by
  intro t ht
  have hseq := reads_seq (f := id) (fun segment _ => reads_subkey segment) t ht
  rw [List.map_id] at hseq
  unfold SubkeyPath.deserialize
  simp only [hseq, Option.bind_eq_bind, Option.bind_some, dif_pos path.nonempty]
  rfl

theorem reads_namespaceKey (key : NamespaceKey) : Reads key.serialize NamespaceKey.deserialize key := by
  intro t ht
  unfold NamespaceKey.deserialize
  simp only [reads_text key.name t ht, Option.bind_eq_bind, Option.bind_some, dif_pos key.nonempty]
  rfl

/-- A map reads back when its keys and its values do. -/
theorem reads_collected {K V : Type} [Ord K] [TransOrd K] [LawfulEqOrd K] {writeKey : K → Tree} {write : V → Tree}
    {readKey : Tree → Option K} {read : Tree → Option V} {m : ExtTreeMap K V}
    (h : ∀ e ∈ m.toList, Reads (writeKey e.1) readKey e.1 ∧ Reads (write e.2) read e.2) {t : Tree}
    (ht : Reordered (.map (m.toList.map fun e => (writeKey e.1, write e.2))) t) :
    ∃ es, t.readMap readKey read = some es ∧ es.foldl (fun m e => m.insert e.1 e.2) ∅ = m := by
  obtain ⟨es, hes, hperm⟩ := readMap_of_reordered (f := id) h ht
  exact ⟨es, hes, collect_of_perm (by simpa using hperm)⟩

theorem reads_key (key : Key) : Reads (key.serialize human) (Key.deserialize human) key := by
  intro t ht
  unfold Key.serialize at ht
  have hpublicKey := ht.readField ⟨1, "public_key"⟩ rfl rfl (reads_publicKey key.publicKey)
  have hweight := ht.readField ⟨2, "weight"⟩ rfl rfl (reads_u32 key.weight)
  obtain ⟨m, hm, hr⟩ := ht.field (field_record ⟨3, "metadata"⟩ rfl rfl)
  obtain ⟨es, hes, hmetadata⟩ := reads_collected (fun e _ => ⟨reads_text e.1, reads_text e.2⟩) hr
  unfold Key.deserialize
  simp only [hpublicKey, hweight, hm, hes, Option.bind_eq_bind, Option.bind_some, hmetadata]
  rfl

/-! ## Values -/

namespace Value

theorem serializeItems_eq : ∀ items : List Value, serializeItems human items = items.map (serialize human)
  | [] => by rw [serializeItems, List.map_nil]
  | item :: rest => by rw [serializeItems, serializeItems_eq rest, List.map_cons]

theorem serializeEntries_eq : ∀ entries : List (String × Value),
    serializeEntries human entries = entries.map fun e => (Tree.text e.1, serialize human e.2)
  | [] => by rw [serializeEntries, List.map_nil]
  | (name, value) :: rest => by rw [serializeEntries, serializeEntries_eq rest, List.map_cons]

theorem deserializeItems_eq (items : List Tree) : deserializeItems human items = items.mapM (deserialize human) := by
  induction items with
  | nil => rw [deserializeItems]; rfl
  | cons item rest ih => rw [deserializeItems, List.mapM_cons, ih]

theorem deserializeEntries_eq (entries : List (Tree × Tree)) : deserializeEntries human entries = entries.mapM (fun e => do
    let name ← e.1.readText
    let value ← deserialize human e.2
    pure (name, value)) := by
  induction entries with
  | nil => rw [deserializeEntries]; rfl
  | cons entry rest ih =>
    obtain ⟨name, value⟩ := entry
    rw [deserializeEntries, List.mapM_cons, ih]
    simp only [bind_assoc, pure_bind]

/-- What the payload of a variant reads as. -/
def readVariant (human : Bool) : Nat × Tree → Option Value
  | (1, value) => value.readText.map .string
  | (2, value) => (readI64 value).map .int
  | (3, value) => value.readBool.map .bool
  | (4, value) => (value.readSeq (deserialize human)).map .array
  | (5, value) => (value.readMap Tree.readText (deserialize human)).map fun entries => .map (Entries.gather entries [])
  | (6, value) => (Key.deserialize human value).map .key
  | _ => none

theorem deserialize_eq (t : Tree) : deserialize human t = (deserializeVariant human VARIANTS t).bind (readVariant human) := by
  rw [deserialize]
  split
  case h_1 heq => rw [heq]; rfl
  case h_2 heq => rw [heq]; rfl
  case h_3 heq => rw [heq]; rfl
  case h_4 heq => rw [heq, deserializeItems_eq]; rfl
  case h_5 heq => rw [heq, deserializeEntries_eq]; rfl
  case h_6 heq => rw [heq]; rfl
  case h_7 h1 h2 h3 h4 h5 h6 =>
    cases hd : deserializeVariant human VARIANTS t with
    | none => rfl
    | some r =>
      obtain ⟨n, value⟩ := r
      rw [Option.bind_some]
      unfold readVariant
      split
      case h_1 heq => cases heq; exact absurd hd (h1 _)
      case h_2 heq => cases heq; exact absurd hd (h2 _)
      case h_3 heq => cases heq; exact absurd hd (h3 _)
      case h_4 heq => cases heq; cases value <;> first | rfl | exact absurd hd (h4 _)
      case h_5 heq => cases heq; cases value <;> first | rfl | exact absurd hd (h5 _)
      case h_6 heq => cases heq; exact absurd hd (h6 _)
      case h_7 => rfl

/-- A variant reads back when its payload does. -/
theorem reads_variant {variant : Name} {value : Tree} {v : Value}
    (hname : VARIANTS.find? (fun w => w.name = variant.name) = some variant)
    (hnumber : VARIANTS.find? (fun w => (w.number : Int) = variant.number) = some variant) (hlt : variant.number < 2 ^ 64)
    (h : Reads value (fun t => readVariant human (variant.number, t)) v) :
    Reads (serializeVariant human variant value) (deserialize human) v := by
  intro t ht
  obtain ⟨value', hvalue, hr⟩ := deserializeVariant_of_reordered VARIANTS hname hnumber hlt ht
  rw [deserialize_eq, hvalue, Option.bind_some]
  exact h value' hr

mutual

theorem reads_serialize : ∀ v : Value, Ordered v → Reads (v.serialize human) (deserialize human) v
  | .string text, _ => by
    rw [serialize]
    refine reads_variant (by decide) (by decide) (by decide) fun t ht => ?_
    simp only [readVariant, reads_text text t ht, Option.map_some]
  | .int n, _ => by
    rw [serialize]
    refine reads_variant (by decide) (by decide) (by decide) fun t ht => ?_
    simp only [readVariant, reads_i64 n t ht, Option.map_some]
  | .bool flag, _ => by
    rw [serialize]
    refine reads_variant (by decide) (by decide) (by decide) fun t ht => ?_
    simp only [readVariant, reads_bool flag t ht, Option.map_some]
  | .key k, _ => by
    rw [serialize]
    refine reads_variant (by decide) (by decide) (by decide) fun t ht => ?_
    simp only [readVariant, reads_key k t ht, Option.map_some]
  | .array items, h => by
    rw [serialize, serializeItems_eq]
    refine reads_variant (by decide) (by decide) (by decide) fun t ht => ?_
    have hseq := reads_seq (f := id) (reads_items items h) t ht
    simp only [readVariant, hseq, Option.map_some, List.map_id]
  | .map entries, h => by
    rw [serialize, serializeEntries_eq]
    refine reads_variant (by decide) (by decide) (by decide) fun t ht => ?_
    obtain ⟨es, hes, hperm⟩ := readMap_of_reordered (f := id) (fun e he => ⟨reads_text e.1, reads_entries entries h.2 e he⟩) ht
    simp only [readVariant, hes, Option.map_some]
    rw [Entries.collect_of_perm h.1 (by simpa using hperm)]

theorem reads_items : ∀ items : List Value, OrderedItems items →
    ∀ item ∈ items, Reads (item.serialize human) (deserialize human) (id item)
  | [], _, _, hitem => nomatch hitem
  | v :: rest, h, item, hitem => by
    rcases List.mem_cons.1 hitem with heq | hitem
    · rw [heq]
      exact reads_serialize v h.1
    · exact reads_items rest h.2 item hitem

theorem reads_entries : ∀ entries : List (String × Value), OrderedEntries entries →
    ∀ e ∈ entries, Reads (e.2.serialize human) (deserialize human) (id e.2)
  | [], _, _, he => nomatch he
  | (name, v) :: rest, h, e, he => by
    rcases List.mem_cons.1 he with rfl | he
    · exact reads_serialize v h.1
    · exact reads_entries rest h.2 e he

end

end Value

/-! ## Messages -/

/-- The values of a message are as the source has them. -/
def AmendOp.Ordered : AmendOp → Prop
  | .appendEntry entry => Wire.Ordered entry
  | .incrementDecrement _ => True
  | .deleteMatching predicate => ∀ m ∈ predicate.conditions, Wire.Ordered m.value

def Msg.Ordered : Msg → Prop
  | .init msg => ∀ e ∈ msg.state.namespaces.toList, Wire.Ordered e.2.value
  | .setNamespace msg => Wire.Ordered msg.namespace.value
  | .setNamespaceKey msg => ∀ v, msg.value = some v → Wire.Ordered v
  | .amendNamespaceKey msg => msg.op.Ordered
  | .deleteNamespace _ => True

theorem reads_namespace {ns : Namespace} (h : Ordered ns.value) : Reads (ns.serialize human) (Namespace.deserialize human) ns := by
  intro t ht
  unfold Namespace.serialize at ht
  have hvalue := ht.readField ⟨1, "value"⟩ rfl rfl (Value.reads_serialize ns.value h)
  unfold Namespace.deserialize
  rw [hvalue]
  rfl

theorem serialize_path_ne_null (path : SubkeyPath) : path.serialize human ≠ .null := by
  unfold SubkeyPath.serialize
  exact Tree.noConfusion

theorem reads_path (path : Option SubkeyPath) :
    Reads (option (SubkeyPath.serialize human) path) (Tree.readOption (SubkeyPath.deserialize human)) path :=
  reads_option serialize_path_ne_null fun path _ => reads_subkeyPath path

theorem reads_match {m : Match} (h : Ordered m.value) : Reads (m.serialize human) (Match.deserialize human) m := by
  intro t ht
  unfold Match.serialize at ht
  have hpath := ht.readOptField ⟨1, "path"⟩ rfl rfl (reads_path m.path)
  have hvalue := ht.readField ⟨2, "value"⟩ rfl rfl (Value.reads_serialize m.value h)
  unfold Match.deserialize
  simp only [hpath, hvalue, Option.bind_eq_bind, Option.bind_some]
  rfl

theorem reads_predicate {p : Predicate} (h : ∀ m ∈ p.conditions, Ordered m.value) :
    Reads (p.serialize human) (Predicate.deserialize human) p := by
  intro t ht
  have hseq := reads_seq (f := id) (fun m hm => reads_match (h m hm)) t ht
  rw [List.map_id] at hseq
  unfold Predicate.deserialize
  simp only [hseq, Option.bind_eq_bind, Option.bind_some, dif_pos p.nonempty]
  rfl

theorem reads_bound (bound : Option Int64) :
    Reads (option (fun n : Int64 => .int n.toInt) bound) (Tree.readOption readI64) bound :=
  reads_option (fun _ => Tree.noConfusion) fun n _ => reads_i64 n

theorem reads_incrementDecrement (inc : IncrementDecrement) :
    Reads (inc.serialize human) (IncrementDecrement.deserialize human) inc := by
  intro t ht
  unfold IncrementDecrement.serialize at ht
  have hdelta := ht.readField ⟨1, "delta"⟩ rfl rfl (reads_i64 inc.delta)
  have hmin := ht.readOptField ⟨2, "min"⟩ rfl rfl (reads_bound inc.min)
  have hmax := ht.readOptField ⟨3, "max"⟩ rfl rfl (reads_bound inc.max)
  unfold IncrementDecrement.deserialize
  simp only [hdelta, hmin, hmax, Option.bind_eq_bind, Option.bind_some]
  rfl

theorem reads_amendOp {op : AmendOp} (h : op.Ordered) : Reads (op.serialize human) (AmendOp.deserialize human) op := by
  intro t ht
  unfold AmendOp.deserialize
  cases op with
  | appendEntry entry =>
    obtain ⟨value, hvalue, hr⟩ := deserializeVariant_of_reordered
      [⟨1, "append_entry"⟩, ⟨2, "increment_decrement"⟩, ⟨3, "delete_matching"⟩] (by decide) (by decide) (by decide) ht
    rw [hvalue]
    simp only [Option.bind_eq_bind, Option.bind_some, Value.reads_serialize entry h _ hr, Option.map_some]
  | incrementDecrement inc =>
    obtain ⟨value, hvalue, hr⟩ := deserializeVariant_of_reordered
      [⟨1, "append_entry"⟩, ⟨2, "increment_decrement"⟩, ⟨3, "delete_matching"⟩] (by decide) (by decide) (by decide) ht
    rw [hvalue]
    simp only [Option.bind_eq_bind, Option.bind_some, reads_incrementDecrement inc _ hr, Option.map_some]
  | deleteMatching predicate =>
    obtain ⟨value, hvalue, hr⟩ := deserializeVariant_of_reordered
      [⟨1, "append_entry"⟩, ⟨2, "increment_decrement"⟩, ⟨3, "delete_matching"⟩] (by decide) (by decide) (by decide) ht
    rw [hvalue]
    simp only [Option.bind_eq_bind, Option.bind_some, reads_predicate h _ hr, Option.map_some]

theorem reads_initMsg {msg : InitMsg} (h : ∀ e ∈ msg.state.namespaces.toList, Ordered e.2.value) :
    Reads (msg.serialize human) (InitMsg.deserialize human) msg := by
  have hstate : Reads (msg.state.serialize human) (FullCheckpoint.deserialize human) msg.state := by
    intro t ht
    unfold FullCheckpoint.serialize at ht
    obtain ⟨m, hm, hr⟩ := ht.field (field_record ⟨1, "namespaces"⟩ rfl rfl)
    obtain ⟨es, hes, hnamespaces⟩ := reads_collected (fun e he => ⟨reads_namespaceKey e.1, reads_namespace (h e he)⟩) hr
    unfold FullCheckpoint.deserialize
    simp only [hm, hes, Option.bind_eq_bind, Option.bind_some, hnamespaces]
    rfl
  intro t ht
  unfold InitMsg.serialize at ht
  unfold InitMsg.deserialize
  rw [ht.readField ⟨1, "state"⟩ rfl rfl hstate]
  rfl

theorem reads_setNamespace {msg : SetNamespace} (h : Ordered msg.namespace.value) :
    Reads (msg.serialize human) (SetNamespace.deserialize human) msg := by
  intro t ht
  unfold SetNamespace.serialize at ht
  have hprev := ht.readField ⟨1, "prev"⟩ rfl rfl (reads_envelopeDigest msg.prev)
  have hkey := ht.readField ⟨2, "key"⟩ rfl rfl (reads_namespaceKey msg.key)
  have hns := ht.readField ⟨3, "namespace"⟩ rfl rfl (reads_namespace h)
  unfold SetNamespace.deserialize
  simp only [hprev, hkey, hns, Option.bind_eq_bind, Option.bind_some]
  rfl

theorem serialize_value_ne_null (v : Value) : v.serialize human ≠ .null := by
  cases v <;> cases human <;> rw [Value.serialize] <;> exact Tree.noConfusion

theorem reads_setNamespaceKey {msg : SetNamespaceKey} (h : ∀ v, msg.value = some v → Ordered v) :
    Reads (msg.serialize human) (SetNamespaceKey.deserialize human) msg := by
  intro t ht
  unfold SetNamespaceKey.serialize at ht
  have hprev := ht.readField ⟨1, "prev"⟩ rfl rfl (reads_envelopeDigest msg.prev)
  have hkey := ht.readField ⟨2, "key"⟩ rfl rfl (reads_namespaceKey msg.key)
  have hpath := ht.readField ⟨3, "path"⟩ rfl rfl (reads_subkeyPath msg.path)
  have hvalue := ht.readOptField ⟨4, "value"⟩ rfl rfl
    (reads_option serialize_value_ne_null fun v hv => Value.reads_serialize v (h v hv))
  unfold SetNamespaceKey.deserialize
  simp only [hprev, hkey, hpath, hvalue, Option.bind_eq_bind, Option.bind_some]
  rfl

theorem reads_amendNamespaceKey {msg : AmendNamespaceKey} (h : msg.op.Ordered) :
    Reads (msg.serialize human) (AmendNamespaceKey.deserialize human) msg := by
  intro t ht
  unfold AmendNamespaceKey.serialize at ht
  have hprev := ht.readField ⟨1, "prev"⟩ rfl rfl (reads_envelopeDigest msg.prev)
  have hkey := ht.readField ⟨2, "key"⟩ rfl rfl (reads_namespaceKey msg.key)
  have hpath := ht.readOptField ⟨3, "path"⟩ rfl rfl (reads_path msg.path)
  have hop := ht.readField ⟨4, "op"⟩ rfl rfl (reads_amendOp h)
  unfold AmendNamespaceKey.deserialize
  simp only [hprev, hkey, hpath, hop, Option.bind_eq_bind, Option.bind_some]
  rfl

theorem reads_deleteNamespace (msg : DeleteNamespace) :
    Reads (msg.serialize human) (DeleteNamespace.deserialize human) msg := by
  intro t ht
  unfold DeleteNamespace.serialize at ht
  have hprev := ht.readField ⟨1, "prev"⟩ rfl rfl (reads_envelopeDigest msg.prev)
  have hkey := ht.readField ⟨2, "key"⟩ rfl rfl (reads_namespaceKey msg.key)
  unfold DeleteNamespace.deserialize
  simp only [hprev, hkey, Option.bind_eq_bind, Option.bind_some]
  rfl

theorem reads_msg {msg : Msg} (h : msg.Ordered) : Reads (msg.serialize human) (Msg.deserialize human) msg := by
  intro t ht
  unfold Msg.deserialize
  cases msg with
  | init msg =>
    obtain ⟨value, hvalue, hr⟩ := deserializeVariant_of_reordered Msg.VARIANTS (by decide) (by decide) (by decide) ht
    rw [hvalue]
    simp only [Option.bind_eq_bind, Option.bind_some, reads_initMsg h _ hr, Option.map_some]
  | setNamespace msg =>
    obtain ⟨value, hvalue, hr⟩ := deserializeVariant_of_reordered Msg.VARIANTS (by decide) (by decide) (by decide) ht
    rw [hvalue]
    simp only [Option.bind_eq_bind, Option.bind_some, reads_setNamespace h _ hr, Option.map_some]
  | setNamespaceKey msg =>
    obtain ⟨value, hvalue, hr⟩ := deserializeVariant_of_reordered Msg.VARIANTS (by decide) (by decide) (by decide) ht
    rw [hvalue]
    simp only [Option.bind_eq_bind, Option.bind_some, reads_setNamespaceKey h _ hr, Option.map_some]
  | amendNamespaceKey msg =>
    obtain ⟨value, hvalue, hr⟩ := deserializeVariant_of_reordered Msg.VARIANTS (by decide) (by decide) (by decide) ht
    rw [hvalue]
    simp only [Option.bind_eq_bind, Option.bind_some, reads_amendNamespaceKey h _ hr, Option.map_some]
  | deleteNamespace msg =>
    obtain ⟨value, hvalue, hr⟩ := deserializeVariant_of_reordered Msg.VARIANTS (by decide) (by decide) (by decide) ht
    rw [hvalue]
    simp only [Option.bind_eq_bind, Option.bind_some, reads_deleteNamespace msg _ hr, Option.map_some]

/-! ## Envelopes -/

theorem reads_timestamp (timestamp : SignedTimestamp) :
    Reads timestamp.serialize SignedTimestamp.deserialize timestamp := by
  intro t ht
  cases ht
  rfl

/-- An envelope reads back with its status reset. -/
theorem reads_envelope {envelope : Envelope} (h : envelope.payload.Ordered) :
    Reads (envelope.serialize human) (Envelope.deserialize human) (envelope.setVerificationStatus .unchecked) := by
  intro t ht
  unfold Envelope.serialize at ht
  have hpayload := ht.readField ⟨1, "payload"⟩ rfl rfl (reads_msg h)
  obtain ⟨m, hm, hr⟩ := ht.field (field_record ⟨2, "signatures"⟩ rfl rfl)
  obtain ⟨es, hes, hsignatures⟩ := reads_collected (fun e _ => ⟨reads_keyId e.1, reads_signature e.2⟩) hr
  have htimestamps := ht.readField ⟨3, "timestamps"⟩ rfl rfl (reads_seq (f := id) fun timestamp _ => reads_timestamp timestamp)
  unfold Envelope.deserialize
  simp only [hpayload, hm, hes, htimestamps, Option.bind_eq_bind, Option.bind_some, hsignatures, List.map_id]
  rfl

section

variable [Cbor2]

/-- An envelope decodes to itself, less its status. -/
theorem decode_encode {envelope : Envelope} (h : envelope.payload.Ordered) :
    ∃ bytes, encode envelope = .ok bytes ∧ decode bytes = .ok (envelope.setVerificationStatus .unchecked) := by
  obtain ⟨bytes, t, hwrite, hread, hr⟩ := Cbor2.faithful (envelope.serialize false)
  refine ⟨bytes, hwrite, ?_⟩
  unfold decode
  rw [hread]
  show (Envelope.deserialize false t).elim (Except.error WireError.decode) Except.ok = _
  rw [reads_envelope h t hr]
  rfl

/-- Whatever goes on the wire comes off it the same: an envelope but for its status, which no encoding
carries, and in JSON every tagged enum and every fixed-width byte string. -/
theorem wire_round_trip :
    (∀ envelope : Envelope, envelope.payload.Ordered →
      ∃ bytes, encode envelope = .ok bytes ∧ decode bytes = .ok (envelope.setVerificationStatus .unchecked)) ∧
    (∀ a b : Envelope, a.payload.Ordered → b.payload.Ordered →
      (encode a = encode b ↔ a.setVerificationStatus .unchecked = b.setVerificationStatus .unchecked)) ∧
    (∀ msg : Msg, msg.Ordered → Msg.deserialize true (msg.serialize true) = some msg) ∧
    (∀ v : Value, Ordered v → Value.deserialize true (v.serialize true) = some v) ∧
    (∀ op : AmendOp, op.Ordered → AmendOp.deserialize true (op.serialize true) = some op) ∧
    (∀ segment : Subkey, Subkey.deserialize true (segment.serialize true) = some segment) ∧
    (∀ key : PublicKey, PublicKey.deserialize true (key.serialize true) = some key) ∧
    (∀ signature : Signature, Signature.deserialize true (signature.serialize true) = some signature) ∧
    (∀ digest : EnvelopeDigest, EnvelopeDigest.deserialize true (digest.serialize true) = some digest) ∧
    (∀ id : KeyId, KeyId.deserialize true (id.serialize true) = some id) ∧
    (∀ key : Ed25519PublicKey, Ed25519PublicKey.deserialize true (key.serialize true) = some key) ∧
    (∀ signature : Ed25519Signature, Ed25519Signature.deserialize true (signature.serialize true) = some signature) := by
  refine ⟨fun envelope h => decode_encode h, fun a b ha hb => ⟨fun heq => ?_, fun heq => ?_⟩, fun msg h => (reads_msg h).self,
    fun v h => (Value.reads_serialize v h).self, fun op h => (reads_amendOp h).self, fun segment => (reads_subkey segment).self,
    fun key => (reads_publicKey key).self, fun signature => (reads_signature signature).self,
    fun digest => (reads_envelopeDigest digest).self, fun id => (reads_keyId id).self,
    fun key => (reads_ed25519PublicKey key).self, fun signature => (reads_ed25519Signature signature).self⟩
  · obtain ⟨bytes, hencode, hdecode⟩ := decode_encode ha
    obtain ⟨bytes', hencode', hdecode'⟩ := decode_encode hb
    rw [hencode, hencode'] at heq
    cases heq
    rw [hdecode] at hdecode'
    exact Except.ok.inj hdecode'
  · show Cbor2.toCanonicalVec ((a.setVerificationStatus .unchecked).serialize false) = _
    rw [heq]
    rfl

end

end IrohLotus.Wire

/-! ## The samples -/

namespace IrohLotus.Wire.Sample

open Serde

/-- Deterministic CBOR. -/
scoped instance cbor2 : Cbor2 where
  toCanonicalVec t := .ok (Cbor.write t)
  fromSlice bytes := (Cbor.readAll bytes).elim (.error .decode) .ok
  faithful w := by
    obtain ⟨t, hread, ht⟩ := Cbor.readAll_write w
    exact ⟨Cbor.write w, t, rfl, by rw [hread]; rfl, ht⟩

example : encode genesis = .ok [0xa3, 0x01, 0xa1, 0x01, 0xa1, 0x01, 0xa1, 0x01, 0xa0, 0x02, 0xa0, 0x03, 0x80] := by
  decide +kernel

theorem wire_round_trip_listed :
    ∃ bytes, encode (listed.setVerificationStatus (.allMatched 3)) = .ok bytes ∧ decode bytes = .ok listed :=
  wire_round_trip.1 _ ⟨trivial, trivial, trivial⟩

end IrohLotus.Wire.Sample
