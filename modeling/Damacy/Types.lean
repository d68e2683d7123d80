import Mathlib.Algebra.Group.Int.Defs
import Mathlib.Algebra.Group.Nat.Defs

/-!
# Shared types

The public vocabulary of the pipeline (`damacy.h`, `damacy_pipeline.h`, `damacy_limits.h`):
statuses, samples with one selection per axis, the batch specification and the planner's limits,
together with the fixed-width arithmetic that the C code computes in.

A C struct of parallel arrays indexed by the axis is a list of per-axis records here, so the rank
of a value is the length of its list. Integer types are `ℕ` and `ℤ`; a range that the C type
imposes on an input is a field of the record that carries the input.
-/

namespace Damacy

/-- `enum damacy_status`. -/
inductive Status
  | ok
  | again
  | inval
  | notfound
  | dtype
  | rank
  | io
  | decode
  | cuda
  | oom
  | budget
  | shutdown
  | unsupported
deriving DecidableEq, Repr

/-! ## Fixed-width arithmetic -/

/-- The value of a `uint64_t` expression whose exact value is `n`. -/
def u64 (n : ℕ) : ℕ := n % 2 ^ 64

/-- The value of a `uint32_t` expression whose exact value is `n`. -/
def u32 (n : ℕ) : ℕ := n % 2 ^ 32

/-- The difference of two `uint64_t` values. -/
def u64Sub (a b : ℕ) : ℕ := u64 (a + (2 ^ 64 - u64 b))

/-- The difference of two `uint32_t` values. -/
def u32Sub (a b : ℕ) : ℕ := u32 (a + (2 ^ 32 - u32 b))

/-- `n - 1` for a `uint64_t` `n`. -/
def u64Pred (n : ℕ) : ℕ := if n = 0 then 2 ^ 64 - 1 else n - 1

/-- `n - 1` for a `uint32_t` `n`. -/
def u32Pred (n : ℕ) : ℕ := if n = 0 then 2 ^ 32 - 1 else n - 1

/-- The conversion of an `int64_t` to `uint64_t`. -/
def u64OfInt (x : ℤ) : ℕ := (x % 2 ^ 64).toNat

/-- `UINT64_MAX`, also `SIZE_MAX`. -/
def uint64Max : ℕ := 2 ^ 64 - 1

def uint32Max : ℕ := 2 ^ 32 - 1

def int64Max : ℕ := 2 ^ 63 - 1

theorem u64_of_lt {n : ℕ} (h : n < 2 ^ 64) : u64 n = n := Nat.mod_eq_of_lt h

theorem u32_of_lt {n : ℕ} (h : n < 2 ^ 32) : u32 n = n := Nat.mod_eq_of_lt h

@[simp] theorem u64Pred_succ (n : ℕ) : u64Pred (n + 1) = n := rfl

@[simp] theorem u32Pred_succ (n : ℕ) : u32Pred (n + 1) = n := rfl

theorem u64OfInt_of_nonneg {x : ℤ} (h : 0 ≤ x) (hlt : x < 2 ^ 63) : u64OfInt x = x.toNat := by
  rw [u64OfInt, Int.emod_eq_of_lt h (by omega)]

theorem u64OfInt_natCast {n : ℕ} (h : n < 2 ^ 63) : u64OfInt (n : ℤ) = n := by
  rw [u64OfInt_of_nonneg (by omega) (by omega), Int.toNat_natCast]

theorem u64_add_u64_left (a b : ℕ) : u64 (u64 a + b) = u64 (a + b) := by
  simp [u64]

theorem u64Sub_of_le {a b : ℕ} (hle : b ≤ a) (hlt : a - b < 2 ^ 64) : u64Sub a b = a - b := by
  simp only [u64Sub, u64]
  omega

theorem u32Sub_of_le {a b : ℕ} (hle : b ≤ a) (hlt : a < 2 ^ 32) : u32Sub a b = a - b := by
  simp only [u32Sub, u32]
  omega

/-! ## Limits -/

/-- `DAMACY_MAX_RANK`. -/
def maxRank : ℕ := 31

/-! ## Samples and output -/

/-- A `NUL`-terminated C string, without its terminator. -/
abbrev CString := List UInt8

/-- `struct damacy_interval`: the half-open range `[beg, stop)`. -/
structure Interval where
  beg : ℤ
  stop : ℤ
deriving DecidableEq, Repr

/-- The values of `int64_t`. -/
def InInt64 (x : ℤ) : Prop := -(2 ^ 63) ≤ x ∧ x < 2 ^ 63

instance (x : ℤ) : Decidable (InInt64 x) := inferInstanceAs (Decidable (_ ∧ _))

/-- `struct damacy_axis_selection`. A `NULL` list of indices is the empty list, which is rejected
alike; `unknown` is a `kind` outside the enumeration. -/
inductive AxisSelection
  | interval (i : Interval)
  | indices (values : List ℤ)
  | unknown
deriving DecidableEq, Repr

/-- The range that the field types of `struct damacy_axis_selection` impose. -/
def AxisSelection.InRange : AxisSelection → Prop
  | .interval i => InInt64 i.beg ∧ InInt64 i.stop
  | .indices values => values.length < 2 ^ 32 ∧ ∀ v ∈ values, InInt64 v
  | .unknown => True

instance (a : AxisSelection) : Decidable a.InRange :=
  match a with
  | .interval _ => inferInstanceAs (Decidable (_ ∧ _))
  | .indices _ => inferInstanceAs (Decidable (_ ∧ _))
  | .unknown => inferInstanceAs (Decidable True)

/-- `struct damacy_sample`, as the caller passes it to `damacy_push`. A `NULL` uri is `none`. -/
structure Sample where
  uri : Option CString
  axes : List AxisSelection
  inRange : ∀ a ∈ axes, a.InRange := by decide
deriving DecidableEq

/-- `enum damacy_dtype`, the element types of an output batch. -/
inductive OutDtype
  | f32 | bf16 | u8 | u16 | u32 | u64 | i8 | i16 | i32 | i64
deriving DecidableEq, Repr

/-- `damacy_dtype_bpe`: bytes per output element. -/
def damacyDtypeBpe : OutDtype → ℕ
  | .f32 => 4
  | .bf16 => 2
  | .u8 => 1
  | .u16 => 2
  | .u32 => 4
  | .u64 => 8
  | .i8 => 1
  | .i16 => 2
  | .i32 => 4
  | .i64 => 8

/-- `struct damacy_batch_spec`; the rank of a sample is the length of `sampleShape`. -/
structure BatchSpec where
  dtype : OutDtype
  samplesPerBatch : ℕ
  sampleShape : List ℤ
deriving DecidableEq, Repr

/-- `struct store_read`; the destination is an offset into the input buffer. -/
structure StoreRead where
  key : Option CString
  dst : ℕ
  offset : ℕ
  len : ℕ
deriving DecidableEq, Repr

/-- `struct damacy_plan_limits`. -/
structure PlanLimits where
  maxChunks : ℕ
  maxChunkBytes : ℕ
  maxShardsPerSample : ℕ
  maxPlanBytes : ℕ
  maxChunks_lt : maxChunks < 2 ^ 32 := by decide
  maxChunkBytes_lt : maxChunkBytes < 2 ^ 32 := by decide
  maxShardsPerSample_lt : maxShardsPerSample < 2 ^ 32 := by decide
  maxPlanBytes_lt : maxPlanBytes < 2 ^ 64 := by decide

/-! ## Metadata handles -/

/-- `struct prefetch_handle`: a slot of a metadata cache and the generation it was given out in. -/
structure PrefetchHandle where
  slot : ℕ
  generation : ℕ
deriving DecidableEq, Repr

/-- The answer of `prefetch_cache_query`: the state with the value (`NULL` is `none`) or the error
code (`ok` is `0`). -/
inductive CacheQuery (β : Type)
  | pending
  | ready (value : Option β)
  | error (err : Status)
deriving DecidableEq, Repr

end Damacy
