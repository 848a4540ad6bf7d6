import Mathlib.Data.Finmap
import Fedis.Impl.Dict

/-!
# What a dict is for: a finite map

The keys of the map are classes of keys that compare equal. `mapAdd`,
`mapReplace`, `mapFetchValue`, `mapContains`, `mapDelete` and `mapSize` are the
calls of the dict's interface on a finite map.
-/

namespace Fedis

universe u v

/-! ## The interface on a finite map -/

section Map

variable {κ : Type u} [DecidableEq κ] {V : Type v}

/-- Adds a key that is not there. -/
def mapAdd (m : Finmap fun _ : κ => V) (k : κ) (val : V) : Int × Finmap fun _ : κ => V :=
  if k ∈ m then (DICT_ERR, m) else (DICT_OK, m.insert k val)

/-- Gives a key that is there another value. -/
def mapReplace (m : Finmap fun _ : κ => V) (k : κ) (val : V) : Int × Finmap fun _ : κ => V :=
  if k ∈ m then (DICT_OK, m.insert k val) else (DICT_ERR, m)

/-- The value of a key, or the default. -/
def mapFetchValue [Inhabited V] (m : Finmap fun _ : κ => V) (k : κ) : V :=
  (m.lookup k).getD default

def mapContains (m : Finmap fun _ : κ => V) (k : κ) : Bool := decide (k ∈ m)

/-- Removes a key that is there. -/
def mapDelete (m : Finmap fun _ : κ => V) (k : κ) : Int × Finmap fun _ : κ => V :=
  if k ∈ m then (DICT_OK, m.erase k) else (DICT_ERR, m)

def mapSize (m : Finmap fun _ : κ => V) : Nat := m.keys.card

end Map

/-! ## Keys -/

variable {K : Type u} {V : Type v}

/-- Callbacks a dict can rely on: `keyCompare` decides whether two keys are in
one class, and the keys of a class hash equally. -/
structure KeyType (K : Type u) extends DictType K where
  Class : Type u
  decEq : DecidableEq Class
  cls : K → Class
  cls_eq_iff : ∀ {a b}, cls a = cls b ↔ keyCompare a b = 0
  hash_eq : ∀ {a b}, keyCompare a b = 0 → hashFunction a = hashFunction b

namespace KeyType

instance (t : KeyType K) : DecidableEq t.Class := t.decEq

/-- Any comparison that decides an equivalence which the hash respects; the
classes are those of the equivalence. -/
def ofEquivalence (t : DictType K) (equiv : Equivalence fun a b => t.keyCompare a b = 0)
    (hash_eq : ∀ {a b}, t.keyCompare a b = 0 → t.hashFunction a = t.hashFunction b) : KeyType K where
  toDictType := t
  Class := Quotient ⟨_, equiv⟩
  decEq := @Quotient.decidableEq K ⟨_, equiv⟩ fun a b =>
    inferInstanceAs (Decidable (t.keyCompare a b = 0))
  cls k := Quotient.mk ⟨_, equiv⟩ k
  cls_eq_iff := Quotient.eq (r := ⟨_, equiv⟩)
  hash_eq := hash_eq

theorem hits_iff (t : KeyType K) {key : K} {e : DictEntry K V} :
    t.hits key e = true ↔ t.cls e.key = t.cls key := by
  rw [DictType.hits, beq_iff_eq, cls_eq_iff]

/-- Equal keys share a bucket. -/
theorem idx_eq (t : KeyType K) (ht : DictHT K V) {a b : K} (h : t.cls a = t.cls b) :
    ht.idx t.toDictType a = ht.idx t.toDictType b := by
  rw [DictHT.idx, DictHT.idx, t.hash_eq (t.cls_eq_iff.mp h)]

end KeyType

/-- Numbers as keys, each its own hash. -/
def natKeys : KeyType Nat where
  hashFunction n := UInt64.ofNat n
  keyCompare a b := (a : Int) - b
  Class := Nat
  decEq := inferInstance
  cls := id
  cls_eq_iff := by simp only [id]; omega
  hash_eq h := congrArg UInt64.ofNat (by omega)

/-- A finite map from key classes. -/
abbrev KeyMap (t : KeyType K) (V : Type v) : Type (max u v) := Finmap fun _ : t.Class => V

/-- The reply of a call on the finite map, and the map after it. -/
def mapCall [Inhabited V] (t : KeyType K) (m : KeyMap t V) :
    DictOp K V → DictReply V × KeyMap t V
  | .add key val => let r := mapAdd m (t.cls key) val; (.status r.1, r.2)
  | .replace key val => let r := mapReplace m (t.cls key) val; (.status r.1, r.2)
  | .fetchValue key => (.value (mapFetchValue m (t.cls key)), m)
  | .contains key => (.bool (mapContains m (t.cls key)), m)
  | .delete key => let r := mapDelete m (t.cls key); (.status r.1, r.2)
  | .size => (.count (mapSize m), m)

end Fedis
