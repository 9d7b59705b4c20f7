import Mathlib.Data.Nat.Basic
import Mathlib.Data.List.Basic
import Mathlib.Tactic.Ring

/-!
# Byte layouts that can be followed by anything

A `Wire α` writes values of `α` as bytes and reads them back from the front of a
byte list, whatever comes after. Layouts are built from little-endian numbers and
runs of bytes by pairing and by change of type.
-/
namespace Pmd.Foundation

structure Wire (α : Type*) where
  /-- Some values may have no layout. -/
  put : α → Option (List UInt8)
  get : List UInt8 → Option (α × List UInt8)
  get_put : ∀ a b rest, put a = some b → get (b ++ rest) = some (a, rest)

namespace Wire
variable {α β : Type*}

/-- The next `n` bytes. -/
def takeBytes (n : ℕ) (b : List UInt8) : Option (List UInt8 × List UInt8) :=
  if n ≤ b.length then some (b.take n, b.drop n) else none

theorem takeBytes_append (a rest : List UInt8) :
    takeBytes a.length (a ++ rest) = some (a, rest) := by
  simp [takeBytes]

def leBytes : ℕ → ℕ → List UInt8
  | 0, _ => []
  | k + 1, n => .ofNat n :: leBytes k (n / 256)

def ofLeBytes : List UInt8 → ℕ
  | [] => 0
  | b :: bs => b.toNat + 256 * ofLeBytes bs

@[simp] theorem length_leBytes (k n : ℕ) : (leBytes k n).length = k := by
  induction k generalizing n with
  | zero => rfl
  | succ k ih => simp [leBytes, ih]

theorem ofLeBytes_leBytes {k n : ℕ} (h : n < 256 ^ k) : ofLeBytes (leBytes k n) = n := by
  induction k generalizing n with
  | zero =>
    have hn : n = 0 := by simpa using h
    simp [leBytes, ofLeBytes, hn]
  | succ k ih =>
    have hdiv : n / 256 < 256 ^ k := by
      rw [Nat.div_lt_iff_lt_mul (by decide), ← pow_succ]
      exact h
    rw [leBytes, ofLeBytes, ih hdiv, UInt8.toNat_ofNat']
    omega

/-- A number in `k` bytes, the least significant first. -/
def natLe (k : ℕ) : Wire ℕ where
  put n := if n < 256 ^ k then some (leBytes k n) else none
  get b := (takeBytes k b).map fun r => (ofLeBytes r.1, r.2)
  get_put n b rest h := by
    obtain ⟨hn, h⟩ := Option.ite_none_right_eq_some.mp h
    cases h
    have htake := takeBytes_append (leBytes k n) rest
    rw [length_leBytes] at htake
    rw [htake, Option.map_some, ofLeBytes_leBytes hn]

/-- Two values, one after the other. -/
def pair (A : Wire α) (B : Wire β) : Wire (α × β) where
  put x := (A.put x.1).bind fun a => (B.put x.2).map fun b => a ++ b
  get b := (A.get b).bind fun r => (B.get r.2).map fun q => ((r.1, q.1), q.2)
  get_put x b rest h := by
    obtain ⟨b₁, h₁, h⟩ := Option.bind_eq_some_iff.mp h
    obtain ⟨b₂, h₂, rfl⟩ := Option.map_eq_some_iff.mp h
    rw [List.append_assoc, A.get_put _ _ _ h₁, Option.bind_some, B.get_put _ _ _ h₂,
      Option.map_some]

theorem put_pair_of {A : Wire α} {B : Wire β} {x : α × β} {b₁ b₂ : List UInt8}
    (h₁ : A.put x.1 = some b₁) (h₂ : B.put x.2 = some b₂) : (A.pair B).put x = some (b₁ ++ b₂) := by
  simp only [pair, h₁, h₂, Option.bind_some, Option.map_some]

theorem put_pair {A : Wire α} {B : Wire β} {x : α × β} {b : List UInt8}
    (h : (A.pair B).put x = some b) :
    ∃ b₁ b₂, A.put x.1 = some b₁ ∧ B.put x.2 = some b₂ ∧ b = b₁ ++ b₂ := by
  obtain ⟨b₁, h₁, h⟩ := Option.bind_eq_some_iff.mp h
  obtain ⟨b₂, h₂, rfl⟩ := Option.map_eq_some_iff.mp h
  exact ⟨b₁, b₂, h₁, h₂, rfl⟩

theorem get_put_nil (A : Wire α) {a : α} {b : List UInt8} (h : A.put a = some b) :
    A.get b = some (a, []) := by
  have hget := A.get_put a b [] h
  rwa [List.append_nil] at hget

/-- The layout of `B` for the values of `α`, where `g` takes `f a` back to `a`. -/
def via (B : Wire β) (f : α → β) (g : β → Option α) (hgf : ∀ a, g (f a) = some a) : Wire α where
  put a := B.put (f a)
  get b := (B.get b).bind fun r => (g r.1).map fun a => (a, r.2)
  get_put a b rest h := by
    rw [B.get_put _ _ _ h, Option.bind_some, hgf]
    rfl

/-- A number below `n`. -/
def fin (k n : ℕ) : Wire (Fin n) :=
  (natLe k).via Fin.val (fun i => if h : i < n then some ⟨i, h⟩ else none) fun a => dif_pos a.isLt

/-- `n` bytes. -/
def bytesOf (n : ℕ) : Wire (Vector UInt8 n) where
  put v := some v.toList
  get b := (takeBytes n b).bind fun r =>
    if h : r.1.length = n then some (⟨r.1.toArray, by simpa using h⟩, r.2) else none
  get_put v b rest h := by
    cases h
    have htake := takeBytes_append v.toList rest
    rw [Vector.length_toList] at htake
    rw [htake, Option.bind_some, dif_pos Vector.length_toList]
    rfl

/-- A length in `k` bytes and then as many bytes. -/
def run (k : ℕ) : Wire (List UInt8) where
  put l := ((natLe k).put l.length).map fun b => b ++ l
  get b := ((natLe k).get b).bind fun r => takeBytes r.1 r.2
  get_put l b rest h := by
    obtain ⟨b₁, h₁, rfl⟩ := Option.map_eq_some_iff.mp h
    rw [List.append_assoc, (natLe k).get_put _ _ _ h₁, Option.bind_some, takeBytes_append]

theorem put_run {k : ℕ} {l : List UInt8} (h : l.length < 256 ^ k) :
    (run k).put l = some (leBytes k l.length ++ l) := by
  simp only [run, natLe, if_pos h, Option.map_some]

end Wire
end Pmd.Foundation
