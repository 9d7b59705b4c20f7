import Pmd.Platform.Environment
import Pmd.Platform.Views
import Mathlib.Data.List.MinMax
import Mathlib.Data.List.Sort
import Mathlib.Data.List.Lex
import Mathlib.Data.Prod.Lex
import Mathlib.Data.String.Basic

/-!
# Document stores that meet the interface

Documents keep their writes in a list. Of the survivors at a path one is shown, and
the shown entries are nested in path order, so that the JSON snapshot depends only on
the set of writes. Concrete runs of the daemon are evaluated on the store `concordat`,
which shows the newest survivor. In `rehashing` the choice among concurrent survivors
changes with the size of the document, as it does where it is left to the order of a
hash table.
-/
namespace Pmd.Reference
open Foundation

structure Doc where
  replica : String
  log : List DocWrite
  vv : VersionVector String

structure Delta where
  log : List DocWrite
  vv : VersionVector String

def rank (w : DocWrite) : ℕ ×ₗ String := toLex (w.dot.counter, w.dot.replica)

/-- The newest write, or the oldest. -/
def pick (newest : Bool) (l : List DocWrite) : Option DocWrite :=
  if newest then l.argmax rank else l.argmin rank

def survivors (log : List DocWrite) (p : Path) : List DocWrite :=
  log.filter fun u => u.path = p ∧ ∀ w ∈ log, ¬ w.Supersedes u

/-- The number of writes of a document. -/
def size (d : Doc) : ℕ := (d.log.map Write.dot).dedup.length

/-- Whether the newest survivor is shown, given the number of writes. -/
abbrev Choice := ℕ → Bool

def shown (choice : Choice) (d : Doc) (p : Path) : Option Json :=
  (pick (choice (size d)) (survivors d.log p)).bind Write.value

def paths (d : Doc) : List Path := (d.log.map Write.path).dedup.insertionSort (· ≤ ·)

def entries (choice : Choice) (d : Doc) : List (Path × Json) :=
  (paths d).filterMap fun p => (shown choice d p).map fun v => (p, v)

def append (d : Doc) (path : String) (x : Option Json) : Doc :=
  { d with log := stamp d.replica d.vv path x :: d.log, vv := tickVv d.replica d.vv }

def logSet (log : List DocWrite) : Set DocWrite := {w | w ∈ log}

theorem logSet_cons (w : DocWrite) (log : List DocWrite) :
    logSet (w :: log) = insert w (logSet log) := by
  ext u
  simp [logSet]

theorem mem_survivors {log : List DocWrite} {p : Path} {u : DocWrite} :
    u ∈ survivors log p ↔ Survives (logSet log) u ∧ u.path = p := by
  simp only [survivors, List.mem_filter, decide_eq_true_eq, Survives, logSet, Set.mem_ofPred_eq]
  tauto

theorem pick_eq_none {newest : Bool} {l : List DocWrite} : pick newest l = none ↔ l = [] := by
  cases newest
  · exact List.argmin_eq_none
  · exact List.argmax_eq_none

theorem pick_mem {newest : Bool} {l : List DocWrite} {w : DocWrite}
    (h : pick newest l = some w) : w ∈ l := by
  cases newest
  · exact List.argmin_mem h
  · exact List.argmax_mem h

theorem eq_of_rank {u w : DocWrite} (h : rank u = rank w) : u.dot = w.dot := by
  simp only [rank, EmbeddingLike.apply_eq_iff_eq, Prod.mk.injEq] at h
  cases hu : u.dot
  cases hw : w.dot
  simp_all

/-- The pick is the same for the same writes, where dots identify them. -/
theorem pick_congr (newest : Bool) {l l' : List DocWrite} (h : ∀ w, w ∈ l ↔ w ∈ l')
    (hd : ∀ u ∈ l, ∀ w ∈ l, u.dot = w.dot → u = w) : pick newest l = pick newest l' := by
  cases hu : pick newest l with
  | none =>
    rw [pick_eq_none, List.eq_nil_iff_forall_not_mem] at hu
    rw [eq_comm, pick_eq_none, List.eq_nil_iff_forall_not_mem]
    exact fun w hw => hu w ((h w).mpr hw)
  | some u =>
    have hul := pick_mem hu
    cases hw : pick newest l' with
    | none =>
      rw [pick_eq_none, List.eq_nil_iff_forall_not_mem] at hw
      exact absurd ((h u).mp hul) (hw u)
    | some w =>
      have hwl := (h w).mpr (pick_mem hw)
      have hrank : rank u = rank w := by
        cases newest
        · exact le_antisymm (List.le_of_mem_argmin hwl hu)
            (List.le_of_mem_argmin ((h u).mp hul) hw)
        · exact le_antisymm (List.le_of_mem_argmax ((h u).mp hul) hw)
            (List.le_of_mem_argmax hwl hu)
      rw [hd u hul w hwl (eq_of_rank hrank)]

section Store
variable (choice : Choice) {d e : Doc} {p : Path}

theorem shown_survivor (d : Doc) (p : Path) :
    (∃ w, Survives (logSet d.log) w ∧ w.path = p ∧ shown choice d p = w.value) ∨
      ((∀ w, Survives (logSet d.log) w → w.path ≠ p) ∧ shown choice d p = none) := by
  cases h : pick (choice (size d)) (survivors d.log p) with
  | none =>
    right
    have hnil := pick_eq_none.mp h
    refine ⟨fun w hw hp => ?_, by simp [shown, h]⟩
    have hmem := mem_survivors.mpr ⟨hw, hp⟩
    simp [hnil] at hmem
  | some w =>
    left
    obtain ⟨hw, hp⟩ := mem_survivors.mp (pick_mem h)
    exact ⟨w, hw, hp, by simp [shown, h]⟩

variable {choice}

theorem mem_paths_of_shown (h : (shown choice d p).isSome) : p ∈ paths d := by
  rcases shown_survivor choice d p with ⟨w, hw, hp, -⟩ | ⟨-, hnone⟩
  · rw [paths, List.mem_insertionSort, List.mem_dedup]
    exact List.mem_map.mpr ⟨w, hw.1, hp⟩
  · simp [hnone] at h

theorem mem_entries {v : Json} : (p, v) ∈ entries choice d ↔ shown choice d p = some v := by
  simp only [entries, List.mem_filterMap, Option.map_eq_some_iff, Prod.mk.injEq]
  constructor
  · rintro ⟨q, -, u, hu, rfl, rfl⟩
    exact hu
  · intro h
    exact ⟨p, mem_paths_of_shown (Option.isSome_of_eq_some h), v, h, rfl, rfl⟩

theorem nodup_paths (d : Doc) : (paths d).Nodup :=
  (List.perm_insertionSort (· ≤ ·) _).nodup_iff.mpr (List.nodup_dedup _)

theorem keys_entries (d : Doc) :
    (entries choice d).map Prod.fst = (paths d).filter fun p => (shown choice d p).isSome := by
  rw [entries]
  generalize paths d = l
  induction l with
  | nil => rfl
  | cons p l ih =>
    cases h : shown choice d p with
    | none => simp [h, ih]
    | some v => simp [h, ih]

theorem nodup_keys_entries (d : Doc) : ((entries choice d).map Prod.fst).Nodup := by
  rw [keys_entries]
  exact (nodup_paths d).filter _

/-- With dots identifying writes, the choice depends only on the writes at the path and
above it, if it takes the same end of them. -/
theorem shown_congr (hd : DotsIdentify (logSet d.log)) (hsize : choice (size d) = choice (size e))
    (h : ∀ w, w.path <+: p → (w ∈ logSet d.log ↔ w ∈ logSet e.log)) :
    shown choice d p = shown choice e p := by
  have hmem : ∀ w, w ∈ survivors d.log p ↔ w ∈ survivors e.log p := by
    intro w
    rw [mem_survivors, mem_survivors, and_congr_left_iff]
    rintro rfl
    exact survives_congr h
  rw [shown, shown, ← hsize, pick_congr _ hmem fun u hu w hw =>
    hd u (mem_survivors.mp hu).1.1 w (mem_survivors.mp hw).1.1]

/-- The same writes have the same images. -/
theorem perm_dedup_map {β : Type} [DecidableEq β] (f : DocWrite → β)
    (h : logSet d.log = logSet e.log) : (d.log.map f).dedup.Perm (e.log.map f).dedup := by
  rw [List.perm_ext_iff_of_nodup (List.nodup_dedup _) (List.nodup_dedup _)]
  intro b
  have hw : ∀ w, w ∈ d.log ↔ w ∈ e.log := fun w => Set.ext_iff.mp h w
  simp only [List.mem_dedup, List.mem_map, hw]

theorem paths_congr (h : logSet d.log = logSet e.log) : paths d = paths e :=
  ((List.perm_insertionSort (· ≤ ·) _).trans ((perm_dedup_map Write.path h).trans
    (List.perm_insertionSort (· ≤ ·) _).symm)).eq_of_pairwise'
      (List.pairwise_insertionSort _ _) (List.pairwise_insertionSort _ _)

/-- The store that decides by the size of the document which survivor it shows. -/
def store (choice : Choice) : Concordat where
  Doc := Doc
  Delta := Delta
  Encoded := Option Delta
  new r := ⟨r, [], ⊥⟩
  set d p v := append d p (some v)
  remove d p := append d p none
  deltaSince d v := ⟨d.log.filter fun w => ¬ Covers v w.dot, d.vv⟩
  mergeDelta d δ := { d with log := d.log ++ δ.log, vv := d.vv ⊔ δ.vv }
  versionVector := Doc.vv
  materialize d := .nest (entries choice d)
  encode := some
  decode := id
  replica := Doc.replica
  writes d := logSet d.log
  shown := shown choice
  deltaWrites δ := logSet δ.log
  deltaVv := Delta.vv
  decode_encode _ := rfl
  replica_new _ := rfl
  writes_new r := by ext; simp [logSet]
  vv_new _ := rfl
  replica_set _ _ _ := rfl
  writes_set d p v := logSet_cons _ _
  vv_set _ _ _ := rfl
  replica_remove _ _ := rfl
  writes_remove d p := logSet_cons _ _
  vv_remove _ _ := rfl
  deltaWrites_since d v := by ext; simp [logSet]
  deltaVv_since _ _ := rfl
  replica_merge _ _ := rfl
  writes_merge d δ := by ext; simp [logSet]
  vv_merge _ _ := rfl
  materialize_congr d e hd h := by
    have hsize : size d = size e := (perm_dedup_map Write.dot h).length_eq
    have hshown : ∀ p, shown choice d p = shown choice e p := fun p =>
      shown_congr hd (congrArg choice hsize) fun w _ => Set.ext_iff.mp h w
    simp only [entries, paths_congr h, hshown]
  shown_survivor := shown_survivor choice
  materialize_leaf d p v h hp := by
    apply Json.descend_nest_leaf (nodup_keys_entries d) (mem_entries.mpr h)
    intro e he hne
    exact hp e.1 (by rw [mem_entries.mp he]; rfl) hne
  materialize_inner d q hq hsome := by
    have hentry : ∀ p, (shown choice d p).isSome ↔ ∃ v, (p, v) ∈ entries choice d := by
      intro p
      simp only [mem_entries, Option.isSome_iff_exists]
    obtain ⟨m, hm, hnd, hnone, hk⟩ := Json.descend_nest_inner (entries choice d) q
      (fun e he => hq e.1 ((hentry e.1).mpr ⟨e.2, he⟩))
    refine ⟨m, ?_, hnd, fun k => ?_⟩
    · cases hd : (Json.nest (entries choice d)).descend q with
      | some j => simpa [hd] using hm
      | none =>
        obtain ⟨hne, hall⟩ := hnone.mp hd
        obtain ⟨p, hp, hpre⟩ := hsome.resolve_left hne
        obtain ⟨v, hv⟩ := (hentry p).mp hp
        exact absurd hpre (hall _ hv)
    · rw [hk k]
      constructor
      · rintro ⟨e, he, hpre⟩
        exact ⟨e.1, (hentry e.1).mpr ⟨e.2, he⟩, hpre⟩
      · rintro ⟨p, hp, hpre⟩
        obtain ⟨v, hv⟩ := (hentry p).mp hp
        exact ⟨(p, v), hv, hpre⟩
  materialize_found d q h := by
    refine (Json.exists_entry_of_descend_nest h).imp_right ?_
    rintro ⟨e, he, hcases⟩
    exact ⟨e.1, e.2, mem_entries.mp he, hcases⟩
  materialize_unique d h := by
    refine Json.uniqueKeys_nest fun e he => ?_
    have hval := mem_entries.mp he
    rcases shown_survivor choice d e.1 with ⟨w, hw, -, hshown⟩ | ⟨-, hnone⟩
    · exact h w hw.1 e.2 (hshown ▸ hval)
    · rw [hnone] at hval
      cases hval

theorem sorted_entries (d : Doc) : ((entries choice d).map Prod.fst).Pairwise (· < ·) := by
  have hle : (paths d).Pairwise (· ≤ ·) := List.pairwise_insertionSort _ _
  have hsorted : (paths d).Pairwise (· < ·) :=
    (hle.and (nodup_paths d)).imp fun h => lt_of_le_of_ne h.1 h.2
  rw [keys_entries]
  exact hsorted.filter _

theorem subtreeLocal {q : Path}
    (h : ∀ p, p <+: q ∨ q <+: p → shown choice d p = shown choice e p) :
    (Json.nest (entries choice d)).descend q = (Json.nest (entries choice e)).descend q := by
  have hsorted : ∀ d : Doc, (((entries choice d).filter
      fun e => e.1 <+: q ∨ q <+: e.1).map Prod.fst).Pairwise (· < ·) := fun d =>
    (sorted_entries d).sublist (List.filter_sublist.map _)
  have hentries : (entries choice d).filter (fun e => e.1 <+: q ∨ q <+: e.1) =
      (entries choice e).filter (fun e => e.1 <+: q ∨ q <+: e.1) := by
    refine eq_of_sorted_keys Prod.fst (hsorted d) (hsorted e) fun a => ?_
    obtain ⟨p, v⟩ := a
    rw [List.mem_filter, List.mem_filter, decide_eq_true_iff, mem_entries, mem_entries]
    refine and_congr_left fun hp => ?_
    rw [h p hp]
  rw [Json.descend_nest_filter (entries choice d), hentries, ← Json.descend_nest_filter]

theorem sortedKeys {q : Path} {m : List (String × Json)}
    (hq : ∀ p, (shown choice d p).isSome → ¬ p <+: q)
    (hfound : (Json.nest (entries choice d)).descend q = some (.object m)) :
    (m.map Prod.fst).Pairwise (· < ·) := by
  have hnot : ∀ e ∈ entries choice d, ¬ e.1 <+: q := fun e he =>
    hq e.1 (by rw [mem_entries.mp he]; rfl)
  obtain ⟨m', hm', hsorted⟩ := Json.sorted_keys_nest
    ((sorted_entries d).imp fun h => le_of_lt h) hnot
  have heq := hm'.found_eq
  rw [hfound, Option.getD_some, Json.object.injEq] at heq
  rwa [heq]

theorem setReplaces : (store choice).SetReplaces := by
  intro d p v hd
  have hentry : ∀ e ∈ entries choice ((store choice).set d p v), splitPath p <+: e.1 →
      e.1 = splitPath p := by
    intro e he hpre
    by_contra hne
    have hnone := hd.shown_below_set p v hpre hne
    have hsome : (store choice).shown ((store choice).set d p v) e.1 = some e.2 := mem_entries.mp he
    rw [hnone] at hsome
    cases hsome
  exact Json.descend_nest_of_none_below (sorted_entries _) (mem_entries.mpr (hd.shown_set p v))
    hentry

end Store

/-- The newest survivor is shown. -/
def concordat : Concordat := store fun _ => true

theorem hierarchical : concordat.Hierarchical where
  path d e _ hd h := @shown_congr (fun _ => true) d e _ hd rfl h
  subtree _ _ _ h := subtreeLocal h
  replaces := setReplaces
  sorted d _ _ hq hfound := @sortedKeys (fun _ => true) d _ _ hq hfound

/-! ## IPv4 socket addresses -/

structure SocketAddrV4 where
  octets : Fin 256 × Fin 256 × Fin 256 × Fin 256
  port : Fin 65536
  deriving DecidableEq

def digits (n : ℕ) : List Char := Nat.toDigits 10 n

def SocketAddrV4.print (a : SocketAddrV4) : String :=
  .ofList (['.'].intercalate [digits a.octets.1, digits a.octets.2.1, digits a.octets.2.2.1,
    digits a.octets.2.2.2] ++ ':' :: digits a.port)

/-- An octet is printed without leading zeros. -/
def parseOctet (s : List Char) : Option (Fin 256) :=
  if h : digits (Nat.ofDigitChars 10 s 0) = s ∧ Nat.ofDigitChars 10 s 0 < 256 then some ⟨_, h.2⟩
  else none

/-- A port may have them. -/
def parsePort (s : List Char) : Option (Fin 65536) :=
  if h : (s ≠ [] ∧ s.all Char.isDigit) ∧ Nat.ofDigitChars 10 s 0 < 65536 then some ⟨_, h.2⟩
  else none

def SocketAddrV4.parse (s : String) : Option SocketAddrV4 :=
  match s.toList.splitOn ':' with
  | [ip, port] =>
    match ip.splitOn '.' with
    | [a, b, c, d] => do
      return ⟨(← parseOctet a, ← parseOctet b, ← parseOctet c, ← parseOctet d), ← parsePort port⟩
    | _ => none
  | _ => none

theorem parseOctet_digits (n : Fin 256) : parseOctet (digits n) = some n := by
  have h : Nat.ofDigitChars 10 (digits n) 0 = n := Nat.ofDigitChars_ten_toDigits
  simp [parseOctet, h]

theorem parsePort_digits (n : Fin 65536) : parsePort (digits n) = some n := by
  have h : Nat.ofDigitChars 10 (digits n) 0 = n := Nat.ofDigitChars_ten_toDigits
  have hd : ∀ c ∈ digits n, c.isDigit := fun c hc =>
    Nat.isDigit_of_mem_toDigits (by decide) (by decide) hc
  have hne : digits n ≠ [] := Nat.toDigits_ne_nil
  simp [parsePort, h, hne]
  exact hd

theorem not_mem_digits {c : Char} (hc : c.isDigit = false) (n : ℕ) : c ∉ digits n := fun h => by
  have := Nat.isDigit_of_mem_toDigits (b := 10) (by decide) (by decide) h
  simp [hc] at this

theorem SocketAddrV4.parse_print (a : SocketAddrV4) : parse a.print = some a := by
  obtain ⟨⟨a, b, c, d⟩, port⟩ := a
  have hdot : ∀ l ∈ [digits a, digits b, digits c, digits d], '.' ∉ l := by
    simp [not_mem_digits]
  have hcolon : ':' ∉ ['.'].intercalate [digits a, digits b, digits c, digits d] := by
    simp [List.intercalate_cons_cons, not_mem_digits]
  rw [parse, print, String.toList_ofList, List.splitOn_append_cons_self_of_not_mem hcolon,
    List.splitOn_eq_singleton (not_mem_digits rfl _)]
  simp only [List.splitOn_intercalate '.' hdot (by simp), parseOctet_digits, parsePort_digits]
  rfl

/-- The platform on which concrete runs are evaluated. The key is mixed into the
nonce by concatenation: only the pairing of nonce and proof matters to them. -/
def platformOn (crdt : Concordat) : Platform where
  crdt := crdt
  Addr := SocketAddrV4
  addrEq := inferInstance
  printAddr := SocketAddrV4.print
  parseAddr := SocketAddrV4.parse
  parse_print := SocketAddrV4.parse_print
  hmac cookie nonce := cookie ++ nonce.toList
  phiExceeds _ _ _ := false

def platform : Platform := platformOn concordat

theorem platformOn_parseAddr (K : Concordat) : (platformOn K).parseAddr = SocketAddrV4.parse := rfl

def config : Config := ⟨4369, "10.0.0.1", 10, 8, 1000, 100⟩

def cookie : Bytes := [42]

def nonce : Nonce := Vector.replicate 32 0

def addr (host : ℕ) : SocketAddrV4 := ⟨(10, 0, 0, Fin.ofNat 256 host), 4369⟩

end Pmd.Reference
