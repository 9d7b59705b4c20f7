import Pmd.Foundation.Framing
import Pmd.Foundation.Wire
import Pmd.Platform.Reference
import Pmd.Protocol.Messages

/-!
# A bincode layout

Fixed-width little-endian numbers, the index of the variant in four bytes, strings
and byte vectors after their length in eight. Messages with a version vector have
no layout here: its encoding belongs to the document crate.
-/
namespace Pmd.Reference
open Foundation

def u32 : Wire UInt32 :=
  (Wire.natLe 4).via UInt32.toNat (fun n => some (.ofNat n)) fun _ => by rw [UInt32.ofNat_toNat]

theorem fromUTF8_toUTF8 (s : String) : String.fromUTF8? ⟨s.toUTF8.data.toList.toArray⟩ = some s :=
  dif_pos s.isValidUTF8

def text : Wire String :=
  (Wire.run 8).via (fun s => s.toUTF8.data.toList) (fun b => String.fromUTF8? ⟨b.toArray⟩)
    fromUTF8_toUTF8

def octets : Wire (Fin 256 × Fin 256 × Fin 256 × Fin 256) :=
  let octet := Wire.fin 1 256
  .pair octet (.pair octet (.pair octet octet))

/-- Variant 0 of `SocketAddr`. -/
def socketAddr : Wire SocketAddrV4 :=
  (Wire.pair (.natLe 4) (.pair octets (.fin 2 65536))).via (fun a => (0, a.octets, a.port))
    (fun r => if r.1 = 0 then some ⟨r.2.1, r.2.2⟩ else none) fun _ => rfl

def membershipEvent : Wire MembershipEvent :=
  (Wire.natLe 4).via (fun e => if e = .nodeJoined then 0 else 1)
    (fun n => if n = 0 then some .nodeJoined else if n = 1 then some .nodeLeft else none)
    fun e => by cases e <;> rfl

/-- The fields of `Handshake`, in order. -/
def handshakeFields : Wire (String × SocketAddrV4 × Nonce × Bytes × String × UInt32) :=
  .pair text (.pair socketAddr (.pair (.bytesOf 32) (.pair (.run 8) (.pair text u32))))

def notificationFields : Wire (MembershipEvent × String × String) :=
  .pair membershipEvent (.pair text text)

def serialize : Message platform → Option Bytes
  | .handshake i a n m v p => (Wire.pair (.natLe 4) handshakeFields).put (0, i, a, n, m, v, p)
  | .notification e i a => (Wire.pair (.natLe 4) notificationFields).put (3, e, i, a)
  | .heartbeat => (Wire.natLe 4).put 4
  | .heartbeatAck => (Wire.natLe 4).put 5
  | .handshakeAck .. | .membershipSync .. => none

/-- Bytes after the message are ignored. -/
def deserialize (b : Bytes) : Option (Message platform) :=
  match (Wire.natLe 4).get b with
  | some (0, b) => (handshakeFields.get b).map fun ((i, a, n, m, v, p), _) => .handshake i a n m v p
  | some (3, b) => (notificationFields.get b).map fun ((e, i, a), _) => .notification e i a
  | some (4, _) => some .heartbeat
  | some (5, _) => some .heartbeatAck
  | _ => none

theorem deserialize_serialize (m : Message platform) (b : Bytes) (h : serialize m = some b) :
    deserialize b = some m := by
  cases m with
  | handshake i a n m v p =>
    rw [serialize] at h
    obtain ⟨b₁, b₂, h₁, h₂, rfl⟩ := Wire.put_pair h
    rw [deserialize, (Wire.natLe 4).get_put _ _ _ h₁]
    simp only [handshakeFields.get_put_nil h₂, Option.map_some]
  | notification e i a =>
    rw [serialize] at h
    obtain ⟨b₁, b₂, h₁, h₂, rfl⟩ := Wire.put_pair h
    rw [deserialize, (Wire.natLe 4).get_put _ _ _ h₁]
    simp only [notificationFields.get_put_nil h₂, Option.map_some]
  | heartbeat | heartbeatAck =>
    cases h
    rfl
  | handshakeAck _ _ _ _ _ _ _ | membershipSync _ _ => cases h

/-- The bytes of a handshake grow with its proof field. -/
theorem serialize_handshake (mac : Bytes) (h : mac.length < 256 ^ 8) :
    ∃ payload, serialize (.handshake "" (addr 1) nonce mac "" PROTOCOL_VERSION) = some payload ∧
      payload.length = mac.length + 74 := by
  refine ⟨_, Wire.put_pair_of rfl (Wire.put_pair_of rfl (Wire.put_pair_of rfl
    (Wire.put_pair_of rfl (Wire.put_pair_of (Wire.put_run h) rfl)))), ?_⟩
  have htext : "".toUTF8.data.toList.length = 0 := rfl
  simp only [List.length_append, Wire.length_leBytes, Vector.length_toList, htext]
  omega

def bincode : Codec (Message platform) := ⟨serialize, deserialize, deserialize_serialize⟩

end Pmd.Reference
