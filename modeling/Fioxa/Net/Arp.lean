import Fioxa.Fs.Disk
import Fioxa.Kernel.Channel

/-! # Packets from the network

`monitor_packets` reads the packets from a channel, into a buffer of 2048 bytes, and hands them to
`handle_ethernet_frame`, which learns from ARP packets which hardware address an IP address has.
A packet that does not fit ends in a panic. Both functions cast the received bytes to packed
structures after asserting a length. The filter for the broadcast address compares 48 bits with the
24-bit constant `0xFF_FF_FF`. -/

namespace Fioxa.Net

open Faults List
open Fs (le16 le32)
open Function (update)

inductive IPAddr where
  | v4 (a b c d : UInt8)
  deriving DecidableEq

def IPAddr.ipv4AddrFromNet (ip : Nat) : IPAddr :=
  .v4 (.ofNat ip) (.ofNat (ip / 0x100)) (.ofNat (ip / 0x10000)) (.ofNat (ip / 0x1000000))

inductive Fault where
  | readFailed
  | assertion
  | outOfBounds
  deriving DecidableEq

abbrev Run (α : Type) := Except (Stop Empty Fault) α

/-- `*(bytes.as_ptr() as *const T)` for a `T` of the given size. -/
def readRaw (bytes : List UInt8) (size : Nat) : Run (List UInt8) := do
  ensure (size ≤ bytes.length) (.fault .outOfBounds)
  return bytes.take size

/-- A `B48` field. -/
def le48 (bytes : List UInt8) (i : Nat) : Nat := le32 bytes i + 0x100000000 * le16 bytes (i + 4)

/-- The fields of an ARP packet that are looked at. -/
structure ARP where
  srcMac : Nat
  srcIp : Nat
  dstMac : Nat
  dstIp : Nat

/-- `size_of::<ARP>()` -/
def ARP.size : Nat := 28

def ARP.ofBytes (bytes : List UInt8) : ARP :=
  ⟨le48 bytes 8, le32 bytes 14, le48 bytes 18, le32 bytes 24⟩

/-- `size_of::<EthernetFrameHeader>()` -/
def headerSize : Nat := 14

def etherTypeBe (header : List UInt8) : Nat := le16 header 12

/-- `ARP_TABLE` -/
abbrev ArpTable := IPAddr → Option Nat

namespace ArpTable

def empty : ArpTable := fun _ => none

/-- One half of the body of `handle_ethernet_frame`: enter an address unless it is filtered out. -/
def learn (table : ArpTable) (ip mac : Nat) : ArpTable :=
  if mac ≠ 0xFFFFFF ∧ mac ≠ 0 then update table (.ipv4AddrFromNet ip) (some mac) else table

end ArpTable

def handleEthernetFrame (table : ArpTable) (header data : List UInt8) : Run ArpTable :=
  if etherTypeBe header = 1544 then do
    ensure (ARP.size ≤ data.length) (.fault .assertion)
    let arp := ARP.ofBytes (← readRaw data ARP.size)
    return (table.learn arp.srcIp arp.srcMac).learn arp.dstIp arp.dstMac
  else return table

/-- `channel_read_rs` when the packet is in the channel: the room is the capacity of the two
    vectors, and a result other than `Ok` is a panic. -/
def readPacket (packet : ChannelMessage) : Run (List UInt8) :=
  match ((KChannelInner.mk .new true [packet]).read 2048 0).1 with
  | .ok msg => .ok msg.data
  | .error _ => .error (.fault .readFailed)

/-- A turn of the loop in `monitor_packets`. -/
def monitorPacket (table : ArpTable) (packet : ChannelMessage) : Run ArpTable := do
  let buffer ← readPacket packet
  ensure (headerSize < buffer.length) (.fault .assertion)
  let header ← readRaw buffer headerSize
  handleEthernetFrame table header (buffer.drop headerSize)

def broadcast : Nat := 0xFFFFFFFFFFFF

/-- No address is mapped to the broadcast address or to zero. -/
def ArpTable.Sound (table : ArpTable) : Prop :=
  ∀ ip mac, table ip = some mac → mac ≠ broadcast ∧ mac ≠ 0

/-- `monitor_packets` on a sequence of packets: after each of them the loop goes on, with a sound
    table. -/
def Harmless (table : ArpTable) : List ChannelMessage → Prop
  | [] => True
  | packet :: packets =>
    ∃ table', monitorPacket table packet = .ok table' ∧ table'.Sound ∧ Harmless table' packets

/-- The second address is not the broadcast address, and neither is the first one unless the second
    takes its place in the table at once. -/
def ARP.Benign (arp : ARP) : Prop :=
  arp.dstMac ≠ broadcast ∧ (arp.srcMac = broadcast →
    (arp.dstMac ≠ 0xFFFFFF ∧ arp.dstMac ≠ 0) ∧
      IPAddr.ipv4AddrFromNet arp.dstIp = .ipv4AddrFromNet arp.srcIp)

/-- A packet that does no harm: it fits into the buffer and brings no handles, it has a header, and
    an ARP packet all its fields. -/
def Benign (packet : ChannelMessage) : Prop :=
  (packet.data.length ≤ 2048 ∧ packet.handlesLen = 0) ∧
    headerSize < packet.data.length ∧ (etherTypeBe (packet.data.take headerSize) = 1544 →
      ARP.size ≤ (packet.data.drop headerSize).length ∧
        (ARP.ofBytes ((packet.data.drop headerSize).take ARP.size)).Benign)

variable {table : ArpTable} {ip mac : Nat}

namespace ArpTable

theorem learn_apply (addr : IPAddr) : table.learn ip mac addr =
    if addr = .ipv4AddrFromNet ip ∧ mac ≠ 0xFFFFFF ∧ mac ≠ 0 then some mac else table addr := by
  unfold learn
  by_cases haddr : addr = .ipv4AddrFromNet ip
  · split <;> simp [*]
  · split <;> simp [haddr]

theorem sound_learn_iff (h : table.Sound) (arp : ARP) :
    ((table.learn arp.srcIp arp.srcMac).learn arp.dstIp arp.dstMac).Sound ↔ arp.Benign := by
  simp only [Sound, learn_apply, broadcast, ARP.Benign] at h ⊢
  constructor
  · intro hsound
    have hdst := hsound (.ipv4AddrFromNet arp.dstIp)
    have hsrc := hsound (.ipv4AddrFromNet arp.srcIp)
    grind
  · grind

end ArpTable

theorem readRaw_bind_eq_ok {bytes : List UInt8} {size : Nat} {k : List UInt8 → Run ArpTable}
    {table' : ArpTable} (hsize : size ≤ bytes.length) :
    (readRaw bytes size >>= k) = .ok table' ↔ k (bytes.take size) = .ok table' := by
  rw [readRaw, bind_assoc, ensure_bind_eq_ok, pure_bind, and_iff_right hsize]

theorem readPacket_bind_eq_ok {packet : ChannelMessage} {k : List UInt8 → Run ArpTable}
    {table' : ArpTable} : (readPacket packet >>= k) = .ok table' ↔
      (packet.data.length ≤ 2048 ∧ packet.handlesLen = 0) ∧ k packet.data = .ok table' := by
  rw [← Nat.le_zero, readPacket]
  rcases (KChannelInner.mk .new true [packet]).read_cases 2048 0 with
    ⟨hempty, -⟩ | ⟨packet', rest, hqueue, hfits, hread⟩ | ⟨packet', rest, hqueue, hfits, hread⟩
  · cases hempty
  · cases hqueue
    rw [hread]
    exact iff_of_false (by rintro ⟨⟩) fun h => hfits h.1
  · cases hqueue
    rw [hread]
    exact (and_iff_right hfits).symm

/-- One packet. -/
theorem monitorPacket_iff (h : table.Sound) (packet : ChannelMessage) :
    (∃ table', monitorPacket table packet = .ok table' ∧ table'.Sound) ↔ Benign packet := by
  simp only [monitorPacket, readPacket_bind_eq_ok, ensure_bind_eq_ok, and_assoc, exists_and_left,
    Benign]
  refine and_congr_right fun _ => and_congr_right fun _ => and_congr_right fun hlen => ?_
  simp only [readRaw_bind_eq_ok (Nat.le_of_lt hlen), handleEthernetFrame]
  split
  · simp only [ensure_bind_eq_ok, and_assoc, exists_and_left, *, true_imp_iff]
    refine and_congr_right fun hsize => ?_
    simp only [readRaw_bind_eq_ok hsize, ← ArpTable.sound_learn_iff h]
    exact ⟨fun ⟨_, heq, hsound⟩ => Except.ok.inj heq ▸ hsound, fun hsound => ⟨_, rfl, hsound⟩⟩
  · exact iff_of_true ⟨table, rfl, h⟩ (by simp [*])

/-- **Packets do no harm exactly if each of them is benign.** -/
theorem packets_harmless_iff (packets : List ChannelMessage) :
    Harmless .empty packets ↔ ∀ packet ∈ packets, Benign packet := by
  suffices hgen : ∀ table : ArpTable, table.Sound →
      (Harmless table packets ↔ ∀ packet ∈ packets, Benign packet) from
    hgen .empty (by simp [ArpTable.Sound, ArpTable.empty])
  induction packets with
  | nil => simp [Harmless]
  | cons packet packets ih =>
    intro table h
    rw [forall_mem_cons, ← monitorPacket_iff h]
    constructor
    · rintro ⟨table', hok, hsound, hrest⟩
      exact ⟨⟨table', hok, hsound⟩, (ih table' hsound).1 hrest⟩
    · rintro ⟨⟨table', hok, hsound⟩, hall⟩
      exact ⟨table', hok, hsound, (ih table' hsound).2 hall⟩

/-- An ARP reply from 10.0.2.2 with the broadcast address as the hardware address of the sender. -/
def spoofedReply : ChannelMessage where
  data := replicate 12 0xFF ++ [0x08, 0x06, 0x00, 0x01, 0x08, 0x00, 6, 4, 0, 2] ++
    replicate 6 0xFF ++ [10, 0, 2, 2] ++ replicate 10 0
  handles := none

/-- A packet that is too long or empty ends the loop, and the reply gets into the table. -/
theorem hostile_packets_harm : ¬ Harmless .empty [⟨replicate 2049 0, none⟩] ∧
    ¬ Harmless .empty [⟨[], none⟩] ∧ ¬ Harmless .empty [spoofedReply] := by
  refine ⟨?_, ?_, ?_⟩
  · rintro ⟨table, hok, -⟩
    have hfits := (readPacket_bind_eq_ok.1 hok).1.1
    rw [length_replicate] at hfits
    exact absurd hfits (by decide)
  · rintro ⟨table, hok, -⟩
    cases hok
  · rintro ⟨table, hok, hsound, -⟩
    have hentry : (monitorPacket .empty spoofedReply).map (· (.v4 10 0 2 2))
        = .ok (some broadcast) := by decide
    rw [hok] at hentry
    exact (hsound _ _ (Except.ok.inj hentry)).1 rfl

end Fioxa.Net
