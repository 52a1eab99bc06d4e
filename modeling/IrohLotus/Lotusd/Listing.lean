/-
A node's own listing among the cluster's nodes: what reading the namespace makes of the entry under
the node's id, and what writes to the transports it lists make of the namespace.
-/
import IrohLotus.Lotusd.Admit
import IrohLotus.Storage.Update

namespace IrohLotus.Lotusd

open Std Outcome IrohLotus.Wire IrohLotus.Storage IrohLotus.State

variable [Externals]

/-! ## Reading an address -/

/-- A transport entry that does not keep the address it is in from being read: it parses, or it is of
a type this build has no variant for. -/
def Usable (entry : Value) : Prop := ∀ e, TransportAddr.tryFrom entry = .error e → ∃ kind, e = .unknownAddrType kind

/-- The transports an array of entries is read as. -/
def transportsOf (items : List Value) : List TransportAddr := items.filterMap fun entry => (TransportAddr.tryFrom entry).toOption

theorem filter_known_iff : ∀ {items : List Value} {addrs : List TransportAddr},
    List.Forall₂ (fun r addr => r = .ok addr) ((items.map TransportAddr.tryFrom).filter knownTransport) addrs ↔
      (∀ entry ∈ items, Usable entry) ∧ addrs = transportsOf items
  | [], addrs => by simp [transportsOf]
  | entry :: items, addrs => by
    have ih := fun addrs => @filter_known_iff items addrs
    rw [List.forall_mem_cons, List.map_cons]
    rcases htry : TransportAddr.tryFrom entry with e | addr
    · have hskip : transportsOf (entry :: items) = transportsOf items := by simp [transportsOf, htry, Except.toOption]
      by_cases hknown : ∃ kind, e = .unknownAddrType kind
      · obtain ⟨kind, rfl⟩ := hknown
        have husable : Usable entry := fun e he => by
          rw [htry] at he
          cases he
          exact ⟨kind, rfl⟩
        rw [List.filter_cons_of_neg (by simp [knownTransport]), ih, hskip]
        simp [husable]
      · have hkept : knownTransport (.error e) = true := by
          cases e <;> first | rfl | exact absurd ⟨_, rfl⟩ hknown
        have hunusable : ¬ Usable entry := fun h => hknown (h e htry)
        rw [List.filter_cons_of_pos hkept, List.forall₂_cons_left_iff]
        simp [hunusable]
    · have husable : Usable entry := fun e he => by
        rw [htry] at he
        cases he
      have hkeep : transportsOf (entry :: items) = addr :: transportsOf items := by simp [transportsOf, htry, Except.toOption]
      rw [List.filter_cons_of_pos rfl, List.forall₂_cons_left_iff, hkeep]
      constructor
      · rintro ⟨addr', rest, haddr, hrest, rfl⟩
        cases haddr
        obtain ⟨hall, rfl⟩ := (ih rest).1 hrest
        exact ⟨⟨husable, hall⟩, rfl⟩
      · rintro ⟨⟨-, hall⟩, rfl⟩
        exact ⟨addr, _, rfl, (ih _).2 ⟨hall, rfl⟩, rfl⟩

omit [Externals] in
theorem stringField_eq_ok {fields : Entries Value} {field text : String} (h : stringField fields field = .ok text) :
    fields.get field = some (.string text) := by
  unfold stringField at h
  split at h
  · rename_i hget
    cases h
    exact hget
  · cases h

/-- What an endpoint address is read from. -/
theorem tryFrom_iff {fields : Entries Value} {addr : EndpointAddr} : EndpointAddr.tryFrom (.map fields) = .ok addr ↔
    ∃ text items, fields.get "endpoint_id" = some (.string text) ∧ Externals.endpointIdFromZ32 text = some addr.id ∧
      fields.get "addrs" = some (.array items) ∧ (∀ entry ∈ items, Usable entry) ∧ addr.addrs = transportsOf items := by
  constructor
  · intro h
    unfold EndpointAddr.tryFrom at h
    obtain ⟨text, htext, h⟩ := except_bind_eq_ok h
    dsimp only at h
    split at h
    swap
    · cases h
    rename_i id hid
    obtain ⟨_, hpure, h⟩ := except_bind_eq_ok h
    cases hpure
    split at h
    · rename_i items hitems
      obtain ⟨_, hpure, h⟩ := except_bind_eq_ok h
      cases hpure
      obtain ⟨addrs, haddrs, h⟩ := except_bind_eq_ok h
      cases h
      obtain ⟨husable, hparsed⟩ := filter_known_iff.1 (except_mapM_iff.1 haddrs)
      exact ⟨text, items, stringField_eq_ok htext, hid, hitems, husable, hparsed⟩
    · cases h
    · cases h
  · rintro ⟨text, items, htext, hid, haddrs, husable, hparsed⟩
    have hmap := except_mapM_iff.2 (filter_known_iff.2 ⟨husable, hparsed⟩)
    have hstring : stringField fields "endpoint_id" = pure text := by
      unfold stringField
      rw [htext]
    unfold EndpointAddr.tryFrom
    simp only [hstring, pure_bind, hid, haddrs, hmap]
    rfl

/-! ## Reading the nodes -/

omit [Externals] in
theorem mapError_eq_ok {α ε ε' : Type} {r : Except ε α} {f : ε → ε'} {a : α} (h : r.mapError f = .ok a) : r = .ok a := by
  cases r with
  | error e => cases h
  | ok b => cases h; rfl

/-- What a node's listing is read from. -/
theorem parseClusterNode_eq_ok {name : String} {value : Value} {id : KeyId} {addr : EndpointAddr} :
    parseClusterNode (name, value) = .ok (id, addr) ↔ Externals.keyIdFromHex name = .ok id ∧
      name = Externals.keyIdToHex id ∧ ∃ inner iroh, value = .map inner ∧ Entries.get inner "iroh" = some iroh ∧
        EndpointAddr.tryFrom iroh = .ok addr := by
  constructor
  · intro h
    unfold parseClusterNode at h
    obtain ⟨nodeId, hid, h⟩ := except_bind_eq_ok h
    have hid := mapError_eq_ok hid
    dsimp only at h
    split at h
    · cases h
    rename_i hname
    have hname := not_not.1 hname
    cases value with
    | map inner =>
      dsimp only at h
      split at h
      · rename_i iroh hiroh
        obtain ⟨addr', haddr, h⟩ := except_bind_eq_ok h
        cases h
        exact ⟨hid, hname, inner, iroh, rfl, hiroh, mapError_eq_ok haddr⟩
      · cases h
    | _ => cases h
  · rintro ⟨hid, hname, inner, iroh, rfl, hiroh, haddr⟩
    have hparse : (Externals.keyIdFromHex name).mapError (fun e => name ++ ": " ++ e) = .ok id := by rw [hid]; rfl
    have haddr' : (EndpointAddr.tryFrom iroh).mapError (fun e => name ++ ": " ++ e.text) = .ok addr := by rw [haddr]; rfl
    unfold parseClusterNode
    simp only [hparse, hiroh, haddr']
    show (if name ≠ Externals.keyIdToHex id then _ else _) = _
    rw [if_neg (not_not.2 hname)]
    rfl

/-- The nodes a map in key order is read as are the entries of it under their ids. -/
theorem getElem?_parseClusterNodes {entries : Entries Value} {nodes : ExtTreeMap KeyId EndpointAddr}
    (hs : Entries.Sorted entries) (h : parseClusterNodes (.map entries) = .ok nodes) {id : KeyId} {addr : EndpointAddr} :
    nodes[id]? = some addr ↔ ∃ value, Entries.get entries (Externals.keyIdToHex id) = some value ∧
      parseClusterNode (Externals.keyIdToHex id, value) = .ok (id, addr) := by
  obtain ⟨parsed, hparsed, h⟩ := except_bind_eq_ok h
  cases h
  have hnames : ∀ {entries : List (String × Value)} {parsed : List (KeyId × EndpointAddr)},
      List.Forall₂ (fun entry node => parseClusterNode entry = .ok node) entries parsed →
        entries.map Prod.fst = parsed.map fun node => Externals.keyIdToHex node.1 := by
    intro entries parsed hall
    induction hall with
    | nil => rfl
    | cons hhead _ ih =>
      rw [List.map_cons, List.map_cons, ih, (parseClusterNode_eq_ok.1 hhead).2.1]
  have hdistinct : parsed.Pairwise fun a b => ¬ compare a.1 b.1 = .eq := by
    unfold Entries.Sorted at hs
    rw [hnames (except_mapM_iff.1 hparsed), List.pairwise_map] at hs
    refine hs.imp fun hlt heq => ?_
    rw [LawfulEqCmp.eq_of_compare heq] at hlt
    exact lt_irrefl _ hlt
  have hmem : (id, addr) ∈ parsed ↔ ∃ value, Entries.get entries (Externals.keyIdToHex id) = some value ∧
      parseClusterNode (Externals.keyIdToHex id, value) = .ok (id, addr) := by
    rw [except_mapM_mem hparsed]
    constructor
    · rintro ⟨⟨name, value⟩, hentry, hparse⟩
      obtain rfl := (parseClusterNode_eq_ok.1 hparse).2.1
      exact ⟨value, hs.get_of_mem hentry, hparse⟩
    · rintro ⟨value, hget, hparse⟩
      exact ⟨_, Entries.mem_of_get hget, hparse⟩
  rw [← hmem]
  constructor
  · intro hget
    obtain ⟨⟨id', addr'⟩, hmem', rfl⟩ : ∃ node ∈ parsed, node.1 = id := by
      by_contra hnone
      have hnot : (parsed.map Prod.fst).contains id = false := by
        rw [List.contains_eq_mem, decide_eq_false_iff_not]
        intro hin
        obtain ⟨node, hnode, hfst⟩ := List.mem_map.1 hin
        exact hnone ⟨node, hnode, hfst⟩
      rw [ExtTreeMap.getElem?_ofList_of_contains_eq_false hnot] at hget
      cases hget
    rw [ExtTreeMap.getElem?_ofList_of_mem compare_self hdistinct hmem'] at hget
    cases hget
    exact hmem'
  · intro hin
    exact ExtTreeMap.getElem?_ofList_of_mem compare_self hdistinct hin

/-! ## One listing rewritten -/

section Relisted

variable {entries inner fields : Entries Value} {nodes nodes' : ExtTreeMap KeyId EndpointAddr} {id : KeyId}
  {current : EndpointAddr} {items : List Value}

/-- A node that is read was listed with an endpoint id and an array of transports. -/
theorem listing_of_node (hs : Entries.Sorted entries) (h : parseClusterNodes (.map entries) = .ok nodes)
    (hid : nodes[id]? = some current) : ∃ inner fields text items, Externals.keyIdFromHex (Externals.keyIdToHex id) = .ok id ∧
      Entries.get entries (Externals.keyIdToHex id) = some (.map inner) ∧ Entries.get inner "iroh" = some (.map fields) ∧
      Entries.get fields "endpoint_id" = some (.string text) ∧ Externals.endpointIdFromZ32 text = some current.id ∧
      Entries.get fields "addrs" = some (.array items) := by
  obtain ⟨value, hget, hparse⟩ := (getElem?_parseClusterNodes hs h).1 hid
  obtain ⟨hhex, -, inner, iroh, rfl, hiroh, haddr⟩ := parseClusterNode_eq_ok.1 hparse
  cases iroh with
  | map fields =>
    obtain ⟨text, items, htext, hz32, hitems, -, -⟩ := tryFrom_iff.1 haddr
    exact ⟨inner, fields, text, items, hhex, hget, hiroh, htext, hz32, hitems⟩
  | _ => cases haddr

/-- With its transports rewritten it is read at those that stand there, and no other node otherwise. -/
theorem getElem?_relisted {text : String} (hs : Entries.Sorted entries) (h : parseClusterNodes (.map entries) = .ok nodes)
    (hhex : Externals.keyIdFromHex (Externals.keyIdToHex id) = .ok id)
    (htext : Entries.get fields "endpoint_id" = some (.string text))
    (hz32 : Externals.endpointIdFromZ32 text = some current.id) (husable : ∀ entry ∈ items, Usable entry)
    (h' : parseClusterNodes (.map (Entries.insert entries (Externals.keyIdToHex id)
      (.map (Entries.insert inner "iroh" (.map (Entries.insert fields "addrs" (.array items))))))) = .ok nodes') :
    nodes'[id]? = some ⟨current.id, transportsOf items⟩ ∧ ∀ other, other ≠ id → nodes'[other]? = nodes[other]? := by
  have hread := fun other addr => @getElem?_parseClusterNodes _ _ _ hs.insert h' other addr
  constructor
  · refine (hread _ _).2 ⟨_, by rw [Entries.get_insert, if_pos rfl], ?_⟩
    refine parseClusterNode_eq_ok.2 ⟨hhex, rfl, _, _, rfl, by rw [Entries.get_insert, if_pos rfl], ?_⟩
    refine tryFrom_iff.2 ⟨text, items, ?_, hz32, by rw [Entries.get_insert, if_pos rfl], husable, rfl⟩
    rw [Entries.get_insert, if_neg (by decide)]
    exact htext
  · intro other hne
    refine Option.ext fun addr => ?_
    rw [hread, getElem?_parseClusterNodes hs h]
    refine exists_congr fun value => and_congr_left fun hparse => ?_
    have hname : Externals.keyIdToHex id ≠ Externals.keyIdToHex other := by
      intro heq
      have hother := (parseClusterNode_eq_ok.1 hparse).1
      rw [← heq, hhex] at hother
      exact hne (Except.ok.inj hother).symm
    rw [Entries.get_insert, if_neg hname]

end Relisted

end IrohLotus.Lotusd
