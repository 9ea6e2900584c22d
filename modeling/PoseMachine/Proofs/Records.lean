import PoseMachine.Baked.Json
import PoseMachine.Proofs.Casts
import PoseMachine.Proofs.Widening

/-!
Values read back: numbers, words, lists and the fields of records. Only a single may have no value,
so reading what was written fails exactly where one of the singles is not finite.
-/

namespace PoseMachine

def AllFinite (xs : List Float32) : Prop := ∀ x ∈ xs, x.isFinite = true

instance (xs : List Float32) : Decidable (AllFinite xs) :=
  inferInstanceAs (Decidable (∀ x ∈ xs, x.isFinite = true))

@[simp] theorem allFinite_nil : AllFinite [] := by simp [AllFinite]

@[simp] theorem allFinite_cons {x : Float32} {xs : List Float32} :
    AllFinite (x :: xs) ↔ x.isFinite = true ∧ AllFinite xs := by
  simp [AllFinite]

@[simp] theorem allFinite_append {xs ys : List Float32} :
    AllFinite (xs ++ ys) ↔ AllFinite xs ∧ AllFinite ys := by
  simp [AllFinite, or_imp, forall_and]

theorem allFinite_flatMap {α : Type} {singles : α → List Float32} {xs : List α} :
    AllFinite (xs.flatMap singles) ↔ ∀ x ∈ xs, AllFinite (singles x) := by
  simp only [AllFinite, List.mem_flatMap, forall_exists_index, and_imp]
  exact ⟨fun h x hx y hy => h y x hx hy, fun h y x hx hy => h x hx y hy⟩

@[simp] theorem allFinite_flatMap_nil {α : Type} (xs : List α) :
    AllFinite (xs.flatMap fun _ => []) := by
  simp [allFinite_flatMap]

namespace Json

section Fields

variable {members : List (String × Json)} {names : List String}

theorem filter_name_eq (h : (members.map (·.1)).Nodup) {m : String × Json} (hm : m ∈ members) :
    (members.filter fun n => n.1 == m.1) = [m] := by
  induction members with
  | nil => simp at hm
  | cons n members ih =>
      rw [List.map_cons, List.nodup_cons] at h
      rcases List.mem_cons.mp hm with rfl | hm
      · have hnone : (members.filter fun n => n.1 == m.1) = [] := by
          rw [List.filter_eq_nil_iff]
          intro n hn heq
          exact h.1 (List.mem_map.mpr ⟨n, hn, eq_of_beq heq⟩)
        simp [hnone]
      · have hne : n.1 ≠ m.1 := by
          intro heq
          rw [heq] at h
          exact h.1 (List.mem_map_of_mem hm)
        simp [hne, ih h.2 hm]

theorem member?_of_mem (h : (members.map (·.1)).Nodup) {m : String × Json} (hm : m ∈ members) :
    member? m.1 members = some (some m.2) := by
  rw [member?, filter_name_eq h hm]

/-- Some members of an object, read by their names. -/
theorem fields?_object_of_subset {picked : List (String × Json)}
    (h : (members.map (·.1)).Nodup) (hpicked : picked ⊆ members) :
    (object members).fields? (picked.map (·.1)) = some (picked.map fun m => some m.2) := by
  rw [fields?]
  induction picked with
  | nil => rfl
  | cons m picked ih =>
      rw [List.cons_subset] at hpicked
      rw [List.map_cons, List.mapM_cons, member?_of_mem h hpicked.1, ih hpicked.2]
      rfl

theorem fields?_object (hnames : members.map (·.1) = names) (h : names.Nodup) :
    (object members).fields? names = some (members.map fun m => some m.2) := by
  subst hnames
  exact fields?_object_of_subset h (List.Subset.refl members)

end Fields

@[simp] theorem bool?_bool (b : Bool) : (bool b).bool? = some b := rfl

@[simp] theorem text?_text (s : String) : (text s).text? = some s := rfl

@[simp] theorem word?_text {α : Type} (loose : Bool) (words : List (String × α)) (s : String) :
    word? loose words (text s) = words.lookup s := rfl

@[simp] theorem required_some {α : Type} (read : Json → Option α) (j : Json) :
    required read (some j) = read j := rfl

@[simp] theorem orElse_some {α : Type} (a : α) (read : Json → Option α) (j : Json) :
    orElse a read (some j) = read j := rfl

section Numbers

@[simp] theorem uint32?_int (n : UInt32) : (int n.toNat).uint32? = some n := by
  have := n.toNat_lt
  rw [uint32?, int?_int (by omega) (by omega)]
  simp

@[simp] theorem uint16?_int (n : UInt16) : (int n.toNat).uint16? = some n := by
  have := n.toNat_lt
  rw [uint16?, int?_int (by omega) (by omega)]
  simp

@[simp] theorem uint8?_int (n : UInt8) : (int n.toNat).uint8? = some n := by
  have := n.toNat_lt
  rw [uint8?, int?_int (by omega) (by omega)]
  simp

@[simp] theorem int32?_int (n : Int32) : (int n.toInt).int32? = some n := by
  have hlow := n.le_toInt
  have hhigh := n.toInt_lt
  rw [int32?, int?_int (by omega) (by omega)]
  simp

@[simp] theorem int8?_int (n : Int8) : (int n.toInt).int8? = some n := by
  have hlow := n.le_toInt
  have hhigh := n.toInt_lt
  rw [int8?, int?_int (by omega) (by omega)]
  simp

@[simp] theorem single?_ofSingle (x : Float32) :
    (ofSingle x).single? = if x.isFinite then some x else none := by
  unfold ofSingle
  split
  · next h => rw [single?, Single.ofDouble_toDouble h]
  · rfl

theorem ofSingle_eq_real {x : Float32} (hx : x.isFinite = true) :
    ∃ y, ofSingle x = .real y ∧ Single.SameNumber x y :=
  ⟨Single.toDouble x, by rw [ofSingle, if_pos hx], Single.sameNumber_toDouble hx⟩

theorem ofSingle_eq_null {x : Float32} (hx : x.isFinite = false) : ofSingle x = .null := by
  simp [ofSingle, hx]

@[simp] theorem pattern?_ofPattern (p : Single.Pattern) :
    (ofPattern p).pattern? = if p.value.isFinite then some p else none := by
  rw [pattern?, ofPattern, single?_ofSingle]
  split
  · next h => rw [Option.map_some, Single.ofValue_value h]
  · rfl

end Numbers

/-- A field that may be missing is told apart from null, which reads as nothing. -/
theorem optional_ofOption {α : Type} {read : Json → Option α} {write : α → Json} {x : Option α}
    (hnull : read .null = none) (h : ∀ a ∈ x, read (write a) = some a) :
    optional read (some (ofOption write x)) = some x := by
  cases x with
  | none => rfl
  | some a =>
      have hread := h a rfl
      rw [ofOption, optional, hread]
      · rfl
      · intro hwrite
        simp [hwrite, hnull] at hread

/-- Reading what was written gives it back if all singles in it are finite, and nothing if not. -/
def Returns {α : Type} (read : Json → Option α) (write : α → Json) (singles : α → List Float32) :
    Prop :=
  ∀ x, read (write x) = if AllFinite (singles x) then some x else none

section Binds

variable {α β : Type} {f : α → Option β}

theorem some_bind (a : α) : (some a >>= f) = f a := rfl

theorem ite_bind {p : Prop} [Decidable p] {x : Option α} :
    (if p then x else none) >>= f = if p then x >>= f else none := by
  split <;> rfl

@[simp] theorem ite_optionBind {p : Prop} [Decidable p] {x : Option α} :
    (if p then x else none).bind f = if p then x.bind f else none :=
  ite_bind

end Binds

section Returns

variable {α : Type} {read : Json → Option α} {write : α → Json} {singles : α → List Float32}

theorem returns_of_eq_some (h : ∀ x, read (write x) = some x) :
    Returns read write fun _ => [] := by
  intro x
  simp [h x]

theorem returns_single : Returns single? ofSingle fun x => [x] := by
  intro x
  simp

theorem returns_pattern : Returns pattern? ofPattern fun p => [p.value] := by
  intro p
  simp

theorem Returns.eq_some (h : Returns read write singles) {x : α} (hx : AllFinite (singles x)) :
    read (write x) = some x := by
  rw [h x, if_pos hx]

theorem Returns.list (h : Returns read write singles) :
    Returns (list? read) (ofList write) fun xs => xs.flatMap singles := by
  intro xs
  simp only [ofList, list?]
  induction xs with
  | nil => simp
  | cons x xs ih =>
      simp only [List.map_cons, List.mapM_cons, h x, ih, some_bind, ite_bind, List.flatMap_cons,
        allFinite_append, ite_and]
      rfl

theorem Returns.array (h : Returns read write singles) (xs : Array α) :
    Baked.array? read (some (Baked.arrayToJson write xs)) =
      if AllFinite (xs.toList.flatMap singles) then some xs else none := by
  rw [Baked.array?, Baked.arrayToJson, required_some, h.list xs.toList]
  split <;> simp

theorem array?_arrayToJson (h : ∀ x, read (write x) = some x) (xs : Array α) :
    Baked.array? read (some (Baked.arrayToJson write xs)) = some xs := by
  rw [Baked.array?, Baked.arrayToJson, required_some, list?_ofList fun x _ => h x]
  simp

end Returns

end Json

end PoseMachine
