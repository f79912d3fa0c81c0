import Mathlib.Data.List.Pairwise
import Mathlib.Data.Nat.Basic

/-! Undo logs with nested marks.

Every step puts entries into a journal that can undo it, and a mark remembers how long the journal was. Going back to a
mark undoes the entries that are newer, newest first, and drops the marks set since. What going back would give is the
same before and after every step, as long as the mark is there (`Moves.restored_eq`).
-/
namespace Okchain.Lib.Journal
open Relation List

variable {E α : Type} (undo : E → α → Option α)

/-- Undo entries one after the other, the first one first. -/
def unwind : List E → α → Option α
  | [], a => some a
  | e :: es, a => (undo e a).bind (unwind es)

theorem unwind_append (es js : List E) (a : α) :
    unwind undo (es ++ js) a = (unwind undo es a).bind (unwind undo js) := by
  induction es generalizing a with
  | nil => rfl
  | cons e es ih =>
    show (undo e a).bind (unwind undo (es ++ js)) = ((undo e a).bind (unwind undo es)).bind (unwind undo js)
    rw [Option.bind_assoc]
    congr 1
    funext b
    exact ih b

theorem unwind_singleton (e : E) (a : α) : unwind undo [e] a = undo e a := by
  exact Option.bind_fun_some _

/-- The journal and the marks: an identifier and the length of the journal for each. -/
structure Book (E : Type) where
  entries : List E
  marks : List (Nat × Nat)
  nextId : Nat

/-- Later marks have greater identifiers and remember longer journals. -/
structure Book.Sound (b : Book E) : Prop where
  ordered : b.marks.Pairwise fun m m' => m'.1 < m.1 ∧ m'.2 ≤ m.2
  within : ∀ m ∈ b.marks, m.1 < b.nextId ∧ m.2 ≤ b.entries.length

/-- The entries since the journal had length `n`. -/
def Book.since (b : Book E) (n : Nat) : List E := b.entries.take (b.entries.length - n)

/-- The book when the journal had length `n`. -/
def Book.back (b : Book E) (id n : Nat) : Book E where
  entries := b.entries.drop (b.entries.length - n)
  marks := b.marks.filter (·.1 < id)
  nextId := b.nextId

/-- What going back to length `n` makes of the contents. -/
def restored (n : Nat) (c : α) (b : Book E) : Option α := unwind undo (b.since n) c

/-- One step: a journaled change, a mark, or going back to one. -/
inductive Moves : α → Book E → α → Book E → Prop
  | write {c c' : α} {b : Book E} (es : List E) (h : unwind undo es c' = some c) :
    Moves c b c' {b with entries := es ++ b.entries}
  | mark {c : α} {b : Book E} :
    Moves c b c {b with marks := (b.nextId, b.entries.length) :: b.marks, nextId := b.nextId + 1}
  | back {c c' : α} {b : Book E} {id n : Nat} (hmark : (id, n) ∈ b.marks) (h : restored undo n c b = some c') :
    Moves c b c' (b.back id n)

variable {undo} {c c' : α} {b b' : Book E} {id n : Nat}

/-- Of two marks one is later in both respects. -/
theorem Book.Sound.compare (h : b.Sound) {m m' : Nat × Nat} (hm : m ∈ b.marks) (hm' : m' ∈ b.marks) :
    m = m' ∨ (m'.1 < m.1 ∧ m'.2 ≤ m.2) ∨ (m.1 < m'.1 ∧ m.2 ≤ m'.2) := by
  refine List.Pairwise.forall_of_forall_of_flip
    (R := fun m m' => m = m' ∨ (m'.1 < m.1 ∧ m'.2 ≤ m.2) ∨ (m.1 < m'.1 ∧ m.2 ≤ m'.2)) ?_ ?_ ?_ hm hm'
  · exact fun _ _ => .inl rfl
  · exact h.ordered.imp fun hlater => .inr (.inl hlater)
  · exact h.ordered.imp fun hlater => .inr (.inr hlater)

theorem Book.Sound.eq_of_id (h : b.Sound) {m m' : Nat × Nat} (hm : m ∈ b.marks) (hm' : m' ∈ b.marks)
    (hid : m.1 = m'.1) : m = m' := by
  rcases h.compare hm hm' with heq | hlater | hlater
  · exact heq
  · omega
  · omega

theorem Book.Sound.le_of_lt (h : b.Sound) {m m' : Nat × Nat} (hm : m ∈ b.marks) (hm' : m' ∈ b.marks)
    (hlt : m.1 < m'.1) : m.2 ≤ m'.2 := by
  rcases h.compare hm hm' with rfl | hlater | hlater
  · exact le_rfl
  · omega
  · exact hlater.2

theorem Book.length_back (hn : n ≤ b.entries.length) : (b.back id n).entries.length = n := by
  show (b.entries.drop (b.entries.length - n)).length = n
  rw [length_drop]
  omega

theorem Book.since_back (id : Nat) {k : Nat} (hk : k ≤ n) (hn : n ≤ b.entries.length) :
    b.since k = b.since n ++ (b.back id n).since k := by
  have hsplit : b.entries.length - k = (b.entries.length - n) + (n - k) := by omega
  unfold since
  rw [length_back hn, hsplit, take_add]
  rfl

section
variable (h : Moves undo c b c' b')
include h

theorem Moves.sound (hb : b.Sound) : b'.Sound := by
  cases h with
  | write es _ =>
    refine ⟨hb.ordered, fun m hm => ⟨(hb.within m hm).1, ?_⟩⟩
    rw [length_append]
    exact Nat.le_trans (hb.within m hm).2 (Nat.le_add_left _ _)
  | mark =>
    refine ⟨pairwise_cons.mpr ⟨fun m hm => hb.within m hm, hb.ordered⟩, fun m hm => ?_⟩
    rcases mem_cons.mp hm with rfl | hm
    · exact ⟨Nat.lt_succ_self _, le_rfl⟩
    · exact ⟨Nat.lt_succ_of_lt (hb.within m hm).1, (hb.within m hm).2⟩
  | @back _ _ id n hmark _ =>
    refine ⟨hb.ordered.filter _, fun m hm => ?_⟩
    obtain ⟨hm, hlt⟩ := mem_filter.mp hm
    rw [Book.length_back (hb.within _ hmark).2]
    exact ⟨(hb.within m hm).1, hb.le_of_lt hm hmark (of_decide_eq_true hlt)⟩

/-- **A step does not change what going back gives.** -/
theorem Moves.restored_eq {k : Nat} (hb : b.Sound) (hk : k ≤ b.entries.length)
    (hmark : (id, k) ∈ b'.marks) : restored undo k c' b' = restored undo k c b := by
  cases h with
  | write es hes =>
    have hlength : (es ++ b.entries).length - k = es.length + (b.entries.length - k) := by
      rw [length_append]
      omega
    unfold restored Book.since
    rw [hlength, take_length_add_append, unwind_append, hes]
    rfl
  | mark => rfl
  | @back _ _ id' n hback hrestored =>
    obtain ⟨hmark, hlt⟩ := mem_filter.mp hmark
    have hkn : k ≤ n := hb.le_of_lt hmark hback (of_decide_eq_true hlt)
    unfold restored at hrestored ⊢
    rw [Book.since_back id' hkn (hb.within _ hback).2, unwind_append, hrestored]
    rfl

/-! ### Runs -/

theorem Moves.mem_marks (hid : id < b.nextId) (hmark : (id, n) ∈ b'.marks) : (id, n) ∈ b.marks := by
  cases h with
  | write es _ => exact hmark
  | mark =>
    rcases mem_cons.mp hmark with heq | hmark
    · cases heq
      exact absurd hid (Nat.lt_irrefl _)
    · exact hmark
  | back _ _ => exact (mem_filter.mp hmark).1

theorem Moves.nextId_le : b.nextId ≤ b'.nextId := by
  cases h with
  | write es _ => exact le_rfl
  | mark => exact Nat.le_succ _
  | back _ _ => exact le_rfl

end

def Runs (undo : E → α → Option α) : α × Book E → α × Book E → Prop :=
  ReflTransGen fun x y => Moves undo x.1 x.2 y.1 y.2

variable {x y : α × Book E}

theorem Runs.sound (h : Runs undo x y) (hx : x.2.Sound) : y.2.Sound := by
  induction h with
  | refl => exact hx
  | tail _ hmove ih => exact hmove.sound ih

theorem Runs.nextId_le (h : Runs undo x y) : x.2.nextId ≤ y.2.nextId := by
  induction h with
  | refl => exact le_rfl
  | tail _ hmove ih => exact Nat.le_trans ih hmove.nextId_le

/-- A run does not change what going back to an old mark gives. -/
theorem Runs.restored_eq (h : Runs undo x y) (hx : x.2.Sound) (hid : id < x.2.nextId) (hmark : (id, n) ∈ y.2.marks) :
    (id, n) ∈ x.2.marks ∧ restored undo n y.1 y.2 = restored undo n x.1 x.2 := by
  induction h using ReflTransGen.head_induction_on with
  | refl => exact ⟨hmark, rfl⟩
  | head hmove _ ih =>
    obtain ⟨hold, heq⟩ := ih (hmove.sound hx) (Nat.lt_of_lt_of_le hid hmove.nextId_le)
    have hmem := hmove.mem_marks hid hold
    exact ⟨hmem, heq.trans (hmove.restored_eq hx (hx.within _ hmem).2 hold)⟩

def Book.marked (b : Book E) : Book E :=
  {b with marks := (b.nextId, b.entries.length) :: b.marks, nextId := b.nextId + 1}

theorem Book.Sound.marked (hb : b.Sound) : b.marked.Sound :=
  (Moves.mark : Moves (fun (_ : E) (u : Unit) => some u) () b () b.marked).sound hb

/-- **Going back to a mark restores the contents it was set at.** -/
theorem restored_mark (hb : b.Sound) (h : Runs undo (c, b.marked) y) (hmark : (b.nextId, n) ∈ y.2.marks) :
    restored undo n y.1 y.2 = some c := by
  obtain ⟨hold, heq⟩ := h.restored_eq hb.marked (Nat.lt_succ_self _) hmark
  have hn : n = b.entries.length :=
    congrArg Prod.snd (hb.marked.eq_of_id hold (mem_cons_self ..) rfl)
  rw [heq, hn]
  show unwind undo (b.entries.take (b.entries.length - b.entries.length)) c = some c
  rw [Nat.sub_self]
  rfl

end Okchain.Lib.Journal
