import BitcoinCrawl.Proofs.Wire.Reading

set_option autoImplicit false

/-! # Messages survive the wire

Every message that keeps the rules of its own kind is read back from its frame
(`Frame.content_encode`). The rules are few: payloads are built from values that fit their fields, so only
announced hosts and fee rates can be such that their own readers refuse them. -/

namespace BitcoinCrawl

/-! ## Addresses -/

theorem Ipv4.ofOctets?_octets (ip : Ipv4) : ofOctets? ip.octets = some ip := rfl

theorem Ipv6.ofOctets?_octets (ip : Ipv6) : ofOctets? ip.octets = some ip := by
  obtain ⟨g0, g1, g2, g3, g4, g5, g6, g7⟩ := ip
  simp only [octets, groups, List.flatMap_cons, List.flatMap_nil, octetPair, List.cons_append, List.nil_append,
    ofOctets?, Decoder.groupOf_octetPair]

theorem Ipv6.length_octets (ip : Ipv6) : ip.octets.length = 16 := rfl

/-- Whether a host keeps the rules of the network it names: an IPv6 host spells nothing else, a CJDNS host
    is in the range of that network, and a network without a meaning here has a number of its own. -/
def HostAddress.Regular : HostAddress → Prop
  | ipv6 ip => ip.isOnionCat = false ∧ ip.isMapped = false
  | cjdns ip => ip.g0 >>> 8 = 0xfc
  | unknown network bytes => (network = 0 ∨ 6 < network) ∧ bytes.length ≤ 512
  | _ => True

/-- Whether the content of a message keeps the rules of its kind. -/
def Message.Regular : Message → Prop
  | addrV2 entries => ∀ entry ∈ entries, entry.host.Regular
  | feeFilter rate => ¬ (rate < 0 ∨ Decoder.maxFee < rate)
  | _ => True

namespace Decoder

theorem reads_ipv6 (ip : Ipv6) : Reads ipv6 ip.octets ip := by
  have hread := (reads_block ⟨ip.octets, ip.length_octets⟩).bind_pure
    (f := fun octets => (Ipv6.ofOctets? octets.bytes).getD .unspecified)
  rwa [Ipv6.ofOctets?_octets] at hread

theorem reads_netAddress (address : NetAddress) : Reads netAddress address.encode address := by
  rw [NetAddress.encode, List.append_assoc]
  exact (reads_word64 _).bind ((reads_ipv6 _).bind (reads_port _).bind_pure)

theorem reads_hostBlock (kind : HostKind) {n : Nat} (octets : Octets n) {length : UInt64}
    (h : length.toNat = n) : Reads (hostBlock kind n length) octets.bytes octets := by
  unfold hostBlock
  rw [if_neg (not_not_intro h)]
  exact reads_block octets

theorem reads_hostAddress {host : HostAddress} (h : host.Regular) : Reads hostAddress host.encode host := by
  cases host with
  | ipv4 ip =>
      exact (reads_byte 1).bind ((reads_compactSize 4).bind (reads_hostBlock .ipv4 ⟨ip.octets, rfl⟩ rfl).bind_pure)
  | ipv6 ip =>
      obtain ⟨honion, hmapped⟩ := h
      refine (reads_byte 2).bind ((reads_compactSize 16).bind
        ((reads_hostBlock .ipv6 ⟨ip.octets, ip.length_octets⟩ rfl).bind_nil ?_))
      simp only [ipv6Of, Ipv6.ofOctets?_octets, Option.getD_some, honion, hmapped]
      exact .pure _
  | torV2 key =>
      show Reads _ ([3] ++ (Bytes.compactSize (UInt64.ofNat key.bytes.length) ++ key.bytes)) _
      rw [key.length_eq]
      exact (reads_byte 3).bind ((reads_compactSize 10).bind (reads_hostBlock .torV2 key rfl).bind_pure)
  | torV3 key =>
      show Reads _ ([4] ++ (Bytes.compactSize (UInt64.ofNat key.bytes.length) ++ key.bytes)) _
      rw [key.length_eq]
      exact (reads_byte 4).bind ((reads_compactSize 32).bind (reads_hostBlock .torV3 key rfl).bind_pure)
  | i2p hash =>
      show Reads _ ([5] ++ (Bytes.compactSize (UInt64.ofNat hash.bytes.length) ++ hash.bytes)) _
      rw [hash.length_eq]
      exact (reads_byte 5).bind ((reads_compactSize 32).bind (reads_hostBlock .i2p hash rfl).bind_pure)
  | cjdns ip =>
      have hrange : ip.g0 >>> 8 = 0xfc := h
      refine (reads_byte 6).bind ((reads_compactSize 16).bind
        ((reads_hostBlock .cjdns ⟨ip.octets, ip.length_octets⟩ rfl).bind_nil ?_))
      simp only [ipv6Of, Ipv6.ofOctets?_octets, Option.getD_some, hrange]
      exact .pure _
  | unknown network bytes =>
      obtain ⟨hnetwork, hshort⟩ := h
      have hlength : (UInt64.ofNat bytes.length).toNat = bytes.length :=
        UInt64.toNat_ofNat_of_lt' (Nat.lt_of_le_of_lt hshort (by decide))
      have hnot : ¬ 512 < UInt64.ofNat bytes.length := by
        rw [UInt64.lt_iff_toNat_lt, hlength]
        exact Nat.not_lt_of_le hshort
      refine (reads_byte network).bind ((reads_compactSize (UInt64.ofNat bytes.length)).bind ?_)
      rw [if_neg hnot]
      split
      iterate 6 exact absurd hnetwork (by decide)
      rw [hlength]
      exact (reads_block ⟨bytes, rfl⟩).bind_pure

theorem reads_hostEntry {entry : HostEntry} (h : entry.host.Regular) : Reads hostEntry entry.encode entry := by
  rw [HostEntry.encode, List.append_assoc, List.append_assoc]
  exact (reads_word32 _).bind ((reads_compactSize _).bind ((reads_hostAddress h).bind (reads_port _).bind_pure))

/-! ## Parts of messages -/

theorem reads_versionMessage (m : VersionMessage) (hagent : (Bytes.ofText m.userAgent).length < UInt64.size) :
    Reads versionMessage m.encode m := by
  obtain ⟨version, services, timestamp, receiver, sender, nonce, userAgent, startHeight, relay⟩ := m
  simp only [VersionMessage.encode, List.append_assoc, versionMessage]
  refine (reads_word32 _).bind ((reads_word64 _).bind ((reads_word64 _).bind ((reads_netAddress _).bind
    ((reads_netAddress _).bind ((reads_word64 _).bind ((reads_text _ hagent).bind ((reads_word32 _).bind
      ((reads_byte _).bind_nil ?_))))))))
  cases relay <;> exact .pure _

theorem reads_timedAddress (entry : UInt32 × NetAddress) :
    Reads timedAddress (Bytes.ofNatLE 4 entry.1.toNat ++ entry.2.encode) entry :=
  (reads_word32 _).bind (reads_netAddress _).bind_pure

theorem reads_inventoryItem (item : InventoryItem) : Reads inventoryItem item.encode item :=
  (reads_word32 _).bind (reads_block _).bind_pure

theorem reads_locator (l : Locator) (hfew : l.hashes.length < UInt64.size) : Reads locator l.encode l := by
  rw [Locator.encode, List.append_assoc]
  exact (reads_word32 _).bind ((reads_list _ (fun hash _ => reads_block hash) hfew).bind (reads_block _).bind_pure)

theorem reads_header (octets : Octets 80) : Reads header (octets.bytes ++ [0]) octets :=
  (reads_block octets).bind ((reads_byte 0).bind (.pure octets))

theorem reads_feeFilter {rate : Int64} (h : ¬ (rate < 0 ∨ maxFee < rate)) :
    Reads feeFilter (Bytes.ofNatLE 8 rate.toUInt64.toNat) (.feeFilter rate) := by
  have hback : rate.toUInt64.toInt64 = rate := rfl
  refine (reads_word64 _).bind_nil ?_
  simp only [hback, if_neg h]
  exact .pure _

theorem reads_sendCmpct (announce : Bool) (version : UInt64) :
    Reads sendCmpct ((if announce then 1 else 0) :: Bytes.ofNatLE 8 version.toNat)
      (.sendCmpct announce version) := by
  cases announce
  · exact (reads_byte 0).bind (reads_word64 version).bind_pure
  · exact (reads_byte 1).bind (reads_word64 version).bind_pure

theorem ofCode?_code (reason : RejectReason) : RejectReason.ofCode? reason.code = some reason := by
  cases reason <;> rfl

theorem reads_reject (r : Rejection) (hmessage : (Bytes.ofText r.message).length < UInt64.size)
    (htext : (Bytes.ofText r.text).length < UInt64.size) : Reads reject r.encode (.reject r) := by
  simp only [Rejection.encode, List.append_assoc, reject]
  refine (reads_text _ hmessage).bind ((reads_byte _).bind ?_)
  rw [ofCode?_code]
  exact (reads_text _ htext).bind (reads_block _).bind_pure

end Decoder

/-! ## Lengths

What a message counts is no more than its bytes, so a payload that a frame may have needs no count that does
not fit. -/

section Lengths

variable {α : Type} {item : α → Bytes}

theorem length_le_counted (items : List α) (hroom : ∀ a, 1 ≤ (item a).length) :
    items.length ≤ (Bytes.counted item items).length := by
  have hitems : items.length ≤ (items.flatMap item).length := by
    induction items with
    | nil => exact Nat.zero_le _
    | cons a items ih =>
        have ha := hroom a
        rw [List.flatMap_cons, List.length_append, List.length_cons]
        omega
  rw [Bytes.counted, List.length_append]
  omega

theorem length_le_sized (bytes : Bytes) : bytes.length ≤ (Bytes.sized bytes).length := by
  rw [Bytes.sized, List.length_append]
  omega

theorem lt_size_of_le {n length : Nat} (h : n ≤ length) (hsmall : length ≤ maxPayload) : n < UInt64.size :=
  Nat.lt_of_le_of_lt (Nat.le_trans h hsmall) (by decide)

end Lengths

namespace Decoder

theorem reads_counted {α : Type} {item : Decoder α} {encode : α → Bytes} (as : List α)
    (h : ∀ a ∈ as, Reads item (encode a) a) (hroom : ∀ a, 1 ≤ (encode a).length)
    (hsmall : (Bytes.counted encode as).length ≤ maxPayload) :
    Reads (list item) (Bytes.counted encode as) as :=
  reads_list as h (lt_size_of_le (length_le_counted as hroom) hsmall)

end Decoder

/-! ## Whole messages -/

namespace Message

/-- The reader that goes with a message's command gives the message back. -/
def Restored (m : Message) : Prop :=
  ∃ d, Decoder.payload? m.command = some d ∧ d m.encode = .ok (m, [])

theorem Restored.of_reads {m : Message} {d : Decoder Message} (hd : Decoder.payload? m.command = some d)
    (h : d.Reads m.encode m) : m.Restored := by
  have hread := h []
  rw [List.append_nil] at hread
  exact ⟨d, hd, hread⟩

theorem length_wordFirst (word : UInt32) (bytes : Bytes) :
    1 ≤ (Bytes.ofNatLE 4 word.toNat ++ bytes).length := by
  rw [List.length_append, Bytes.length_ofNatLE]
  omega

theorem restored {m : Message} (h : m.Regular) (hsmall : m.encode.length ≤ maxPayload) : m.Restored := by
  cases m with
  | version m =>
      refine .of_reads rfl ((Decoder.reads_versionMessage m (lt_size_of_le ?_ hsmall)).map _)
      have hagent := length_le_sized (Bytes.ofText m.userAgent)
      simp only [encode, VersionMessage.encode, List.length_append]
      omega
  | addr entries =>
      exact .of_reads rfl ((Decoder.reads_counted entries (fun entry _ => Decoder.reads_timedAddress entry)
        (fun _ => length_wordFirst _ _) hsmall).map _)
  | addrV2 entries =>
      refine .of_reads rfl ((Decoder.reads_counted entries (fun entry he => Decoder.reads_hostEntry (h entry he))
        (fun entry => ?_) hsmall).map _)
      rw [HostEntry.encode, List.append_assoc, List.append_assoc]
      exact length_wordFirst _ _
  | inv items | getData items | notFound items =>
      exact .of_reads rfl ((Decoder.reads_counted items (fun item _ => Decoder.reads_inventoryItem item)
        (fun _ => length_wordFirst _ _) hsmall).map _)
  | getBlocks locator | getHeaders locator =>
      refine .of_reads rfl ((Decoder.reads_locator locator (lt_size_of_le ?_ hsmall)).map _)
      have hhashes := @length_le_counted _ Octets.bytes locator.hashes fun hash => by
        rw [hash.length_eq]
        decide
      simp only [encode, Locator.encode, List.length_append]
      omega
  | headers all =>
      refine .of_reads rfl ((Decoder.reads_counted all (fun header _ => Decoder.reads_header header)
        (fun header => ?_) hsmall).map _)
      rw [List.length_append, header.length_eq]
      decide
  | ping nonce | pong nonce => exact .of_reads rfl ((Decoder.reads_word64 nonce).map _)
  | feeFilter rate => exact .of_reads rfl (Decoder.reads_feeFilter h)
  | sendCmpct announce version => exact .of_reads rfl (Decoder.reads_sendCmpct announce version)
  | alert bytes =>
      exact .of_reads rfl ((Decoder.reads_bytes bytes (lt_size_of_le (length_le_sized bytes) hsmall)).map _)
  | reject r =>
      have hmessage := length_le_sized (Bytes.ofText r.message)
      have htext := length_le_sized (Bytes.ofText r.text)
      simp only [encode, Rejection.encode, List.length_append] at hsmall
      exact .of_reads rfl (Decoder.reads_reject r (lt_size_of_le (by omega) hsmall)
        (lt_size_of_le (by omega) hsmall))
  | bulk kind payload => cases kind <;> exact ⟨_, rfl, rfl⟩
  | verack | memPool | getAddr | sendHeaders | filterClear | wtxidRelay | sendAddrV2 =>
      exact .of_reads rfl (.pure _)

/-- A command name as the header can carry it: short, in ASCII, without zeros. -/
structure IsCommand (name : String) : Prop where
  fits : (Bytes.ofText name).length ≤ 12
  nonzero : 0 ∉ Bytes.ofText name
  ascii : (Bytes.ofText name).any (128 ≤ ·) = false
  text : String.ofList ((Bytes.ofText name).map fun b => Char.ofUInt8 b) = name

instance (name : String) : Decidable (IsCommand name) :=
  decidable_of_iff
    ((Bytes.ofText name).length ≤ 12 ∧ 0 ∉ Bytes.ofText name ∧
      (Bytes.ofText name).any (128 ≤ ·) = false ∧
      String.ofList ((Bytes.ofText name).map fun b => Char.ofUInt8 b) = name)
    ⟨fun ⟨fits, nonzero, ascii, text⟩ => ⟨fits, nonzero, ascii, text⟩,
      fun ⟨fits, nonzero, ascii, text⟩ => ⟨fits, nonzero, ascii, text⟩⟩

theorem isCommand_command (m : Message) : IsCommand m.command := by
  cases m with
  | bulk kind payload =>
      simp only [command]
      cases kind <;> decide
  | _ =>
      simp only [command]
      decide

end Message

/-- **Round trip.** The frame of a message that keeps the rules of its kind, and is not too large, holds
    this message. -/
theorem Frame.content_encode (magic : Magic) {m : Message} (h : m.Regular)
    (hsmall : m.encode.length ≤ maxPayload) : content (encode magic m) = .ok (.known m) := by
  have hname := m.isCommand_command
  have hcommand : commandOf (encode magic m) = Bytes.ofText m.command :=
    commandOf_build _ _ magic.length_eq hname.fits fun _ hmem hzero => hname.nonzero (hzero ▸ hmem)
  have hpayload : payloadOf (encode magic m) = m.encode := payloadOf_build _ _ magic.length_eq
  have hchecksum : checksumOf (encode magic m) = checksum m.encode := checksumOf_build _ _ magic.length_eq
  obtain ⟨d, hd, hread⟩ := m.restored h hsmall
  simp only [content, hcommand, hpayload, hchecksum, hname.ascii, hname.text, hd, hread]
  simp

end BitcoinCrawl
