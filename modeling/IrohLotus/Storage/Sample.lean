/-
The SQLite backend over code that stands in for what it calls: row ids as SQLite gives them, one past
the largest in use, deterministic CBOR, and the milliseconds chrono can hold.
-/
import IrohLotus.Storage.Sqlite
import IrohLotus.Wire.RoundTrip

namespace IrohLotus.Storage.Sample

open Std Bytes Serde IrohLotus.Wire IrohLotus.Wire.Sample

/-- The id after the largest in use. -/
def nextRowid (nodes : ExtTreeMap NodeId NodeRow) : NodeId := nodes.maxKey?.elim 1 (· + 1)

theorem nextRowid_free (nodes : ExtTreeMap NodeId NodeRow) : nodes[nextRowid nodes]? = none := by
  unfold nextRowid
  cases hmax : nodes.maxKey? with
  | none => simp [ExtTreeMap.maxKey?_eq_none_iff.1 hmax]
  | some m =>
    refine ExtTreeMap.getElem?_eq_none fun hmem => ?_
    have hle := (ExtTreeMap.maxKey?_eq_some_iff_mem_and_forall.1 hmax).2 _ hmem
    rw [Option.elim_some, Nat.isLE_compare] at hle
    omega

theorem ordered_of_leaf {v : Value} (h : kind v = .leaf) : Ordered v := by
  cases v <;> trivial

/-- The values of the samples are in order. -/
theorem ordered_of_digest {portion : SignedPortion} {d : EnvelopeDigest} (h : portion.digest = .ok d) :
    portion.payload.Ordered := by
  have hmem : portion ∈ table.map Prod.fst := by
    by_contra hmem
    have hnone : table.lookup portion = none := by
      rw [List.lookup_eq_none_iff]
      intro row hrow
      rw [bne_iff_ne]
      rintro rfl
      exact hmem (List.mem_map_of_mem hrow)
    simp only [SignedPortion.digest, Externals.hash, hnone] at h
    cases h
  simp only [table, List.map_cons, List.map_nil, List.mem_cons, List.not_mem_nil, or_false] at hmem
  rcases hmem with rfl | rfl | rfl | rfl | rfl | rfl | rfl | rfl | rfl | rfl | rfl
  case inr.inr.inr.inr.inr.inr.inr.inl =>
    intro e he
    rw [ExtTreeMap.mem_toList_iff_getElem?_eq_some] at he
    simp only [ExtTreeMap.getElem?_insert, ExtTreeMap.getElem?_empty] at he
    split at he
    · rw [← Option.some.inj he]
      trivial
    · cases he
  all_goals simp [genesis, first, second, third, other, listed, cleared, raised, counted, bumped, Envelope.new, Msg.Ordered, Ordered, OrderedItems, AmendOp.Ordered]

/-- The backend on deterministic CBOR. -/
scoped instance backing : Backing where
  rowid := nextRowid
  rowid_free := nextRowid_free
  encodeValue v := .ok (Cbor.write (v.serialize false))
  decodeValue bytes := ((Cbor.readAll bytes).bind (Value.deserialize false)).elim (.error .decode) .ok
  decodeValue_encodeValue v hv := by
    obtain ⟨t, hread, ht⟩ := Cbor.readAll_write (v.serialize false)
    refine ⟨_, rfl, ?_⟩
    rw [hread, Option.bind_some, Value.reads_serialize v (ordered_of_leaf hv) t ht]
    rfl
  encodeEnvelope portion := encode ⟨portion, .unchecked⟩
  decodeEnvelope bytes := (decode bytes).map Envelope.toSignedPortion
  decodeEnvelope_encodeEnvelope portion d hd := by
    let envelope : Envelope := ⟨portion, .unchecked⟩
    have hordered : envelope.payload.Ordered := ordered_of_digest hd
    obtain ⟨bytes, hencode, hdecode⟩ := decode_encode hordered
    exact ⟨bytes, hencode, by rw [hdecode]; rfl⟩
  isTime millis := -8334601228800000 ≤ millis ∧ millis ≤ 8210266876799999

end IrohLotus.Storage.Sample
