import Pmd.Platform.Concordat
import Pmd.Daemon.FailureDetector
import Mathlib.Data.List.AList

/-!
# What the daemon is built on

The document crate, socket addresses with their printed form, HMAC-SHA256 and
the phi comparison are parameters. The only law used of addresses is that a
printed address parses back to itself.
-/
namespace Pmd
open Foundation

abbrev Bytes := List UInt8
abbrev Nonce := Vector UInt8 32
/-- `HashMap<String, _>`: an association list without repeated keys. -/
abbrev StrMap (β : Type) := AList (fun _ : String => β)

structure Platform where
  crdt : Concordat
  Addr : Type
  addrEq : DecidableEq Addr
  printAddr : Addr → String
  parseAddr : String → Option Addr
  parse_print : ∀ a, parseAddr (printAddr a) = some a
  hmac : Bytes → Nonce → Bytes
  /-- Whether `phi()` at the instant exceeds the threshold. -/
  phiExceeds : PhiAccrualDetector → ℕ → ℚ → Bool

namespace Platform

instance (P : Platform) : DecidableEq P.Addr := P.addrEq

abbrev Doc (P : Platform) := P.crdt.Doc

end Platform

/-- The fields of the daemon configuration that the modelled code reads. -/
structure Config where
  port : UInt16
  bind : String
  heartbeatIntervalSecs : ℕ
  phiThreshold : ℚ
  phiWindowSize : ℕ
  phiMinStdDeviationMs : ℚ

/-- The address every handshake advertises: `bind:port`, parsed. -/
def Config.listenAddr (P : Platform) (cfg : Config) : Option P.Addr :=
  P.parseAddr (cfg.bind ++ ":" ++ toString cfg.port.toNat)

end Pmd
