import Pmd.Platform.Environment

/-!
# Wire messages, control requests and the cookie proof

The `Message` enum of the inter-daemon protocol with every field, the control
requests, and the HMAC over a nonce that both handshake messages carry.
-/
namespace Pmd
open Foundation

def PROTOCOL_VERSION : UInt32 := 1

inductive MembershipEvent where
  | nodeJoined
  | nodeLeft
  deriving DecidableEq

/-- A detected membership change, as broadcast to subscribers. -/
structure MembershipChange where
  event : MembershipEvent
  nodeId : String
  addr : String
  deriving DecidableEq

inductive Message (P : Platform) where
  | handshake (nodeId : String) (listenAddr : P.Addr) (nonce : Nonce) (cookieHmac : Bytes)
      (version : String) (protocolVersion : UInt32)
  | handshakeAck (nodeId : String) (listenAddr : P.Addr) (nonce : Nonce) (cookieHmac : Bytes)
      (vv : VersionVector String) (version : String) (protocolVersion : UInt32)
  | membershipSync (deltaBytes : P.crdt.Encoded) (senderVv : VersionVector String)
  | notification (event : MembershipEvent) (nodeId addr : String)
  | heartbeat
  | heartbeatAck

inductive ControlRequest where
  | status
  | nodes
  | join (addr : String)
  | leave (addr : String)
  | shutdown
  | register (name : String) (port : UInt16) (metadata : StrMap String)
  | unregister (name : String)
  | lookup (name : String)
  | subscribe

variable (P : Platform)

def computeCookieHmac (cookie : Bytes) (nonce : Nonce) : Bytes := P.hmac cookie nonce

def verifyCookieHmac (cookie : Bytes) (nonce : Nonce) (expected : Bytes) : Bool :=
  P.hmac cookie nonce == expected

variable {P}

theorem verifyCookieHmac_iff {cookie : Bytes} {nonce : Nonce} {expected : Bytes} :
    verifyCookieHmac P cookie nonce expected = true ↔ expected = P.hmac cookie nonce := by
  rw [verifyCookieHmac, beq_iff_eq]
  exact eq_comm

/-- The nonce and proof a message carries, if it is one of the two handshakes. -/
def Message.proof : Message P → Option (Nonce × Bytes)
  | .handshake _ _ nonce mac _ _ => some (nonce, mac)
  | .handshakeAck _ _ nonce mac _ _ _ => some (nonce, mac)
  | _ => none

end Pmd
