import Mathlib.Algebra.Group.Int.Defs
import Mathlib.Data.List.MinMax

/-!
# Node clocks and tombstones

The parts of the row replication that every two-way table shares: which node
the triggers run on (`scd_node`, `scd_role`), the hybrid clock that stamps row
versions (`scd_hlc`), and the table `repl_tombstones` that records deletes.

A `bigint` version is an `Int`. `v >> 4`, `v << 4` and `v & 15` are `v / 16`,
`v * 16` and `v % 16`, which is what they are on a two's complement integer; a
stamp reaches `2 ^ 63` only after the year 11100. A timestamp is its number of
microseconds.
-/

namespace SC.Impl.Replication

open List

inductive Node where
  | core | main | star
  deriving DecidableEq

def Node.text : Node → String
  | .core => "core"
  | .main => "main"
  | .star => "star"

abbrev Uuid := BitVec 128

instance : LawfulBEq Uuid := inferInstance

/-- The text of a `uuid`: hexadecimal digits in groups of 8, 4, 4, 4 and 12. -/
def Uuid.text (u : Uuid) : String :=
  let digits := u.toHex.toList
  "-".intercalate ([(0, 8), (8, 4), (12, 4), (16, 4), (20, 12)].map fun (i, n) =>
    String.ofList ((digits.drop i).take n))

inductive Role where
  | core | api
  deriving DecidableEq

def scdNodeOrd : Node → Int
  | .core => 1
  | .main => 2
  | .star => 3

/-- `scd_hlc(prev)` at the wall clock `clock`. -/
def scdHlc (clock : Int) (node : Node) (prev : Option Int) : Int :=
  max clock (prev.getD 0 / 16 + 1) * 16 + scdNodeOrd node

theorem scdNodeOrd_mem (n : Node) : 0 < scdNodeOrd n ∧ scdNodeOrd n < 16 := by
  cases n <;> decide

/-- A stamp is above the version it replaces. -/
theorem lt_scdHlc (clock : Int) (n : Node) (v : Int) : v < scdHlc clock n (some v) := by
  have := scdNodeOrd_mem n
  have : v / 16 + 1 ≤ max clock (v / 16 + 1) := le_max_right ..
  simp only [scdHlc, Option.getD_some]
  omega

/-! ## The table `repl_tombstones` -/

/-- A row of `repl_tombstones` for one table: the key, the version of the delete and its time.
The primary key is `(pk, v)`. -/
structure Tombstone (K : Type) where
  pk : K
  v : Int
  deletedAt : Int
  deriving DecidableEq

variable {K : Type} [DecidableEq K]

/-- `(SELECT max(x.v) FROM repl_tombstones x WHERE x.pk = k)`. -/
def newestTomb (tombs : List (Tombstone K)) (k : K) : Option Int :=
  ((tombs.filter fun x => x.pk = k).map Tombstone.v).max?

/-- `INSERT INTO repl_tombstones … ON CONFLICT DO NOTHING`. -/
def insertTombstone (tombs : List (Tombstone K)) (t : Tombstone K) : List (Tombstone K) :=
  if tombs.any fun x => x.pk = t.pk ∧ x.v = t.v then tombs else tombs ++ [t]

/-- `scd_ver_repl_tombstones`: the version stamped on a tombstone inserted by a local delete. -/
def scdVerReplTombstones (clock : Int) (node : Node) (tombs : List (Tombstone K)) (k : K) (v : Int) : Int :=
  scdHlc clock node (some ((newestTomb tombs k).elim v (max v)))

def TombOf (tombs : List (Tombstone K)) (k : K) (v : Int) : Prop :=
  ∃ t ∈ tombs, t.pk = k ∧ t.v = v

theorem newestTomb_eq_some {tombs : List (Tombstone K)} {k : K} {tv : Int} :
    newestTomb tombs k = some tv ↔ TombOf tombs k tv ∧ ∀ v, TombOf tombs k v → v ≤ tv := by
  simp only [newestTomb, List.max?_eq_some_iff, TombOf]
  constructor
  · rintro ⟨hm, hle⟩
    obtain ⟨t, ht, rfl⟩ := mem_map.1 hm
    simp only [mem_filter, decide_eq_true_eq] at ht
    refine ⟨⟨t, ht.1, ht.2, rfl⟩, ?_⟩
    rintro v ⟨u, hu, hk, rfl⟩
    exact hle _ (mem_map.2 ⟨u, by simp [hu, hk], rfl⟩)
  · rintro ⟨⟨t, ht, hk, rfl⟩, hle⟩
    refine ⟨mem_map.2 ⟨t, by simp [ht, hk], rfl⟩, ?_⟩
    intro v hv
    obtain ⟨u, hu, rfl⟩ := mem_map.1 hv
    simp only [mem_filter, decide_eq_true_eq] at hu
    exact hle _ ⟨u, hu.1, hu.2, rfl⟩

theorem newestTomb_eq_none {tombs : List (Tombstone K)} {k : K} :
    newestTomb tombs k = none ↔ ∀ v, ¬ TombOf tombs k v := by
  simp only [newestTomb, List.max?_eq_none_iff, map_eq_nil_iff, filter_eq_nil_iff, TombOf,
    decide_eq_true_eq]
  constructor
  · rintro h v ⟨t, ht, hk, -⟩
    exact h t ht hk
  · rintro h t ht hk
    exact h t.v ⟨t, ht, hk, rfl⟩

theorem exists_newestTomb_ge {tombs : List (Tombstone K)} {k : K} {x : Int} :
    (∃ tv ∈ newestTomb tombs k, x ≤ tv) ↔ ∃ v, TombOf tombs k v ∧ x ≤ v := by
  constructor
  · rintro ⟨tv, htv, hle⟩
    exact ⟨tv, (newestTomb_eq_some.1 htv).1, hle⟩
  · rintro ⟨v, hv, hle⟩
    cases hn : newestTomb tombs k with
    | none => exact absurd hv (newestTomb_eq_none.1 hn v)
    | some tv => exact ⟨tv, rfl, hle.trans ((newestTomb_eq_some.1 hn).2 v hv)⟩

theorem tombOf_insertTombstone {tombs : List (Tombstone K)} {t : Tombstone K} {k : K} {v : Int} :
    TombOf (insertTombstone tombs t) k v ↔ TombOf tombs k v ∨ (t.pk = k ∧ t.v = v) := by
  simp only [insertTombstone]
  split
  · rename_i h
    obtain ⟨x, hx, hxt⟩ := any_eq_true.1 h
    simp only [decide_eq_true_eq] at hxt
    refine ⟨Or.inl, ?_⟩
    rintro (h | ⟨rfl, rfl⟩)
    · exact h
    · exact ⟨x, hx, hxt⟩
  · simp [TombOf, or_and_right, exists_or]

end SC.Impl.Replication
