import Mathlib.Data.List.MinMax
import Mathlib.Data.List.Perm.Basic

/-!
# Min-heaps

A binary min-heap is observed only through `push`, `extend`, `peek`, `pop` and
its length.  Under a linear order the element on top does not depend on the
layout of the heap: it is the least one.  A heap is therefore the list of its
elements, `peek` is `List.argmin`, and `pop` erases what `peek` shows.  Where
several elements are least a real heap may show any of them, so the heaps this
models should hold distinct elements.
-/

structure MinHeap (α : Type) where
  items : List α
  deriving Repr

namespace MinHeap

variable {α : Type}

def ofList (items : List α) : MinHeap α := ⟨items⟩

def len (heap : MinHeap α) : ℕ := heap.items.length

def push (heap : MinHeap α) (a : α) : MinHeap α := ⟨heap.items ++ [a]⟩

def extend (heap : MinHeap α) (more : List α) : MinHeap α := ⟨heap.items ++ more⟩

@[simp] theorem items_ofList (items : List α) : (ofList items).items = items := rfl

@[simp] theorem items_push (heap : MinHeap α) (a : α) : (heap.push a).items = heap.items ++ [a] :=
  rfl

@[simp] theorem items_extend (heap : MinHeap α) (more : List α) :
    (heap.extend more).items = heap.items ++ more := rfl

variable [LinearOrder α]

/-- The least element, `none` for the empty heap. -/
def peek (heap : MinHeap α) : Option α := heap.items.argmin id

/-- The least element and the heap without it. -/
def pop (heap : MinHeap α) : Option (α × MinHeap α) :=
  heap.peek.map fun a => (a, ⟨heap.items.erase a⟩)

theorem peek_mem {heap : MinHeap α} {a : α} (h : heap.peek = some a) : a ∈ heap.items :=
  List.argmin_mem h

theorem peek_le {heap : MinHeap α} {a b : α} (h : heap.peek = some a) (hb : b ∈ heap.items) :
    a ≤ b :=
  List.le_of_mem_argmin hb h

theorem peek_eq_none_iff (heap : MinHeap α) : heap.peek = none ↔ heap.items = [] :=
  List.argmin_eq_none

theorem pop_eq_some_iff {heap rest : MinHeap α} {a : α} :
    heap.pop = some (a, rest) ↔ heap.peek = some a ∧ rest.items = heap.items.erase a := by
  cases rest
  simp [pop, eq_comm]

theorem pop_eq_none_iff (heap : MinHeap α) : heap.pop = none ↔ heap.items = [] := by
  simp [pop, peek_eq_none_iff]

theorem perm_of_pop {heap rest : MinHeap α} {a : α} (h : heap.pop = some (a, rest)) :
    heap.items.Perm (a :: rest.items) := by
  obtain ⟨hpeek, hrest⟩ := pop_eq_some_iff.mp h
  rw [hrest]
  exact List.perm_cons_erase (peek_mem hpeek)

theorem len_lt_of_pop {heap rest : MinHeap α} {a : α} (h : heap.pop = some (a, rest)) :
    rest.len < heap.len := by
  have hlen := (perm_of_pop h).length_eq
  simp only [List.length_cons] at hlen
  simp only [len]
  omega

theorem le_of_pop {heap rest : MinHeap α} {a b : α} (h : heap.pop = some (a, rest))
    (hb : b ∈ heap.items) : a ≤ b :=
  peek_le (pop_eq_some_iff.mp h).1 hb

end MinHeap
