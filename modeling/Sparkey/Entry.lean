import Sparkey.Vlq

/-!
# Entries

What one put or one delete adds to a log: a head of two numbers, and a body.
-/

namespace Sparkey

inductive Entry
  | put (key value : Blob)
  | delete (key : Blob)
  deriving DecidableEq

namespace Entry

def key : Entry → List UInt8
  | put key _ => key.1
  | delete key => key.1

/-- The value of an entry; a delete has none. -/
def value : Entry → List UInt8
  | put _ value => value.1
  | delete _ => []

/-- What `sparkey_logiter_type` says of an entry. -/
def type : Entry → EntryType
  | put _ _ => .put
  | delete _ => .delete

/-- The first number of the head: 0 marks a delete. -/
def num1 : Entry → Nat
  | put key _ => key.1.length + 1
  | delete _ => 0

def num2 : Entry → Nat
  | put _ value => value.1.length
  | delete key => key.1.length

def data1 : Entry → List UInt8
  | put key _ => key.1
  | delete _ => []

def data2 : Entry → List UInt8
  | put _ value => value.1
  | delete key => key.1

def header (e : Entry) : List UInt8 := writeVlq e.num1 ++ writeVlq e.num2

def body (e : Entry) : List UInt8 := e.key ++ e.value

def bytes (e : Entry) : List UInt8 := e.header ++ e.body

variable (e : Entry)

theorem data1_append_data2 : e.data1 ++ e.data2 = e.body := by
  rcases e with ⟨k, v⟩ | k
  · rfl
  · exact (List.append_nil k.1).symm

theorem num1_lt : e.num1 < 2 ^ 64 := by
  rcases e with ⟨⟨k, hk⟩, v⟩ | k
  · show k.length + 1 < 2 ^ 64
    omega
  · exact Nat.two_pow_pos 64

theorem num2_lt : e.num2 < 2 ^ 64 := by
  rcases e with ⟨k, ⟨v, hv⟩⟩ | ⟨k, hk⟩
  · show v.length < 2 ^ 64
    omega
  · show k.length < 2 ^ 64
    omega

theorem length_key_lt : e.key.length < 2 ^ 63 := by
  rcases e with ⟨⟨k, hk⟩, v⟩ | ⟨k, hk⟩ <;> exact hk

theorem header_ne_nil : e.header ≠ [] := by
  have := length_writeVlq_pos e.num1
  intro h
  rw [header, List.append_eq_nil_iff] at h
  rw [h.1] at this
  exact absurd this (Nat.lt_irrefl 0)

theorem two_le_length_header : 2 ≤ e.header.length := by
  have h1 := length_writeVlq_pos e.num1
  have h2 := length_writeVlq_pos e.num2
  rw [header, List.length_append]
  omega

end Entry

theorem readVlq_header (e : Entry) {array tl : List UInt8} {position : Nat}
    (h : array.drop position = e.header ++ tl) (hle : position ≤ array.length) :
    readVlq array position = some (e.num1, position + (writeVlq e.num1).length) ∧
      readVlq array (position + (writeVlq e.num1).length)
        = some (e.num2, position + e.header.length) := by
  have harr : array = array.take position ++ (writeVlq e.num1 ++ (writeVlq e.num2 ++ tl)) := by
    conv_lhs => rw [← List.take_append_drop position array, h, Entry.header, List.append_assoc]
  have hlen : (array.take position).length = position := List.length_take_of_le hle
  constructor
  · have := readVlq_writeVlq e.num1_lt (array.take position) (writeVlq e.num2 ++ tl)
    rwa [← harr, hlen] at this
  · have := readVlq_writeVlq e.num2_lt (array.take position ++ writeVlq e.num1) tl
    rw [List.append_assoc, ← harr, List.length_append, hlen] at this
    rw [this, Entry.header, List.length_append, Nat.add_assoc]

end Sparkey
