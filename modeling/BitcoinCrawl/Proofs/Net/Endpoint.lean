import BitcoinCrawl.Proofs.Net.SocketAddress
import BitcoinCrawl.Proofs.NodeFile.RoundTrip
import BitcoinCrawl.Proofs.Registry.Calls

set_option autoImplicit false

/-! # The text of an endpoint is its identity

An endpoint is printed as its socket address and read back as the same endpoint (`parse?_toString`), so texts can
stand for endpoints wherever they are kept. The main theorem (`text_identifies`) draws the consequences: for
comparing endpoints, for texts in other spellings, and for the nodes in a node file. -/

namespace BitcoinCrawl

namespace Endpoint

/-- The text of any socket address is read as its endpoint, without its scope and with an IPv4 host in IPv4
    form. -/
theorem parse?_socket (address : SocketAddress) : parse? (toString address) = some (ofSocket address) := by
  have htext : (toString address).toList = address.chars := String.toList_ofList
  rw [parse?, htext, SocketAddress.parse?_chars]
  rfl

theorem ofSocket_socket (e : Endpoint) : ofSocket e.socket = e := by
  have hparts : e.socket.ip = e.ip ∧ e.socket.port = e.port := by
    rw [socket]
    cases e.ip with
    | v4 ip => exact ⟨rfl, rfl⟩
    | v6 ip => exact ⟨rfl, rfl⟩
  rw [ofSocket, hparts.1, hparts.2, of_ip_port]

theorem parse?_toString (e : Endpoint) : parse? (toString e) = some e := by
  calc parse? (toString e)
      = some (ofSocket e.socket) := parse?_socket e.socket
    _ = some e := by rw [ofSocket_socket]

end Endpoint

/-- A good node is saved under the text of its endpoint. -/
theorem Registry.Consistent.endpoints_goodRecords {r : Registry} (hc : r.Consistent) :
    r.goodRecords.map NodeRecord.endpoint = r.good.toList.map toString := by
  -- Every good endpoint has a node, and that node has this endpoint.
  have hall : ∀ es : List Endpoint, (∀ e ∈ es, e ∈ r.good.toList) →
      (es.filterMap fun e => (r.node? e).map Node.record).map NodeRecord.endpoint = es.map toString := by
    intro es
    induction es with
    | nil => exact fun _ => rfl
    | cons e rest ih =>
        intro hgood
        obtain ⟨he, hrest⟩ := List.forall_mem_cons.mp hgood
        obtain ⟨n, hn, -⟩ := state?_eq_some.mp ((hc.mem_good e).mp he)
        have hrecord : n.record.endpoint = toString e := congrArg toString (hc.keyed e n hn)
        simp only [List.filterMap_cons, hn, Option.map_some, List.map_cons, hrecord, ih hrest]
  exact hall r.good.toList fun _ h => h

namespace Endpoint

/-- **The text of an endpoint is its identity.**

    * No endpoint, however it was made, is an IPv6 spelling of an IPv4 one, and each is read back from its text.
    * So endpoints are equal exactly if their texts are.
    * What any text is read as is read again from its own text; so is the endpoint of any socket address, whether
      it names a scope and whether it spells an IPv4 host as an IPv6 one.
    * The endpoints in a node file with the good nodes of a registry are read as those nodes, in their order. -/
theorem text_identifies :
    (∀ e : Endpoint, e.ip.isMapped = false ∧ parse? (toString e) = some e) ∧
      (∀ e e' : Endpoint, e = e' ↔ toString e = toString e') ∧
      (∀ text, (parse? text).bind (fun e => parse? (toString e)) = parse? text) ∧
      (∀ address : SocketAddress, parse? (toString address) = some (ofSocket address)) ∧
      ∀ calls : List Registry.Call, ∃ records,
        NodeFile.parse (NodeFile.print (Registry.performAll {} calls).goodRecords) = .ok records ∧
          records.map (fun record => parse? record.endpoint) =
            (Registry.performAll {} calls).good.toList.map some := by
  refine ⟨fun e => ⟨e.notMapped, parse?_toString e⟩, fun e e' => ?_, fun text => ?_, parse?_socket,
    fun calls => ⟨_, NodeFile.parse_print _, ?_⟩⟩
  · constructor
    · exact congrArg toString
    · intro htext
      have hparsed := congrArg parse? htext
      rw [parse?_toString, parse?_toString] at hparsed
      exact Option.some.inj hparsed
  · cases parse? text with
    | none => rfl
    | some e => exact parse?_toString e
  · have hendpoints := (Registry.consistent_empty.performAll calls).endpoints_goodRecords
    calc (Registry.performAll {} calls).goodRecords.map (fun record => parse? record.endpoint)
        = ((Registry.performAll {} calls).goodRecords.map NodeRecord.endpoint).map parse? := by
          rw [List.map_map]
          rfl
      _ = (Registry.performAll {} calls).good.toList.map (fun e => parse? (toString e)) := by
          rw [hendpoints, List.map_map]
          rfl
      _ = (Registry.performAll {} calls).good.toList.map some := by
          simp only [parse?_toString]

end Endpoint

end BitcoinCrawl
