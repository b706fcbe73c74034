/-!
# SsaForm.Attributes — markers on instructions

Passes talk to each other through a small set of markers on each instruction. The set is a word of 32
bits, five of which have names; unnamed bits are carried along and shown as a number.
-/

namespace SsaForm

/-- A set of instruction markers, one per bit. -/
structure Attributes where
  bits : BitVec 32
deriving DecidableEq, Repr

namespace Attributes

/-- No marker at all. -/
def empty : Attributes := ⟨0⟩

/-- The instruction is not inlined where its value is used. -/
def dontInline : Attributes := ⟨0x1⟩

/-- The instruction has no spelling in source code and is never emitted. -/
def dontGenerate : Attributes := ⟨0x2⟩

/-- The result keeps its name when variables are renamed. -/
def dontRename : Attributes := ⟨0x4⟩

/-- The next cleanup drops the instruction. -/
def remove : Attributes := ⟨0x8⟩

/-- A pass made the instruction; it was not decoded. -/
def synthetic : Attributes := ⟨0x10⟩

/-- Markers of either set. -/
def union (a b : Attributes) : Attributes := ⟨a.bits ||| b.bits⟩

/-- Markers of `a` that are not in `b`. -/
def without (a b : Attributes) : Attributes := ⟨a.bits &&& ~~~b.bits⟩

/-- Markers of both sets. -/
def inter (a b : Attributes) : Attributes := ⟨a.bits &&& b.bits⟩

/-- Does `a` have every marker of `b`? -/
def contains (a b : Attributes) : Bool := a.inter b == b

/-- Is no bit set, named or not? -/
def isEmpty (a : Attributes) : Bool := a == empty

/-- The markers that every phi carries for life. -/
def phi : Attributes := dontInline.union dontGenerate

/-- The named markers, lowest bit first. -/
def named : List (String × Attributes) :=
  [("DONT_INLINE", dontInline), ("DONT_GENERATE", dontGenerate), ("DONT_RENAME", dontRename),
    ("REMOVE", remove), ("SYNTHETIC", synthetic)]

/-- The union of the named markers. -/
def known : Attributes := named.foldl (fun a n => a.union n.2) empty

/-- Only the named markers. -/
def truncate (a : Attributes) : Attributes := a.inter known

/-- Only the bits without a name. -/
def unnamed (a : Attributes) : Attributes := a.without known

/-- The set itself, unless it has bits without a name. -/
def onlyNamed? (a : Attributes) : Option Attributes :=
  if a.unnamed.isEmpty then some a else none

/-- The set as reports show it: the names, then the bits without a name as one number; the empty set
is the number zero. -/
def text (a : Attributes) : String :=
  let names := (named.filter fun n => a.contains n.2).map (·.1)
  let rest := String.ofList (Nat.toDigits 16 a.unnamed.bits.toNat)
  let parts := if names.isEmpty || !a.unnamed.isEmpty then names ++ [s!"0x{rest}"] else names
  let joined := String.intercalate " | " parts
  s!"AFlag({joined})"

instance : ToString Attributes := ⟨text⟩

/-! ## Membership laws -/

theorem contains_iff {a b : Attributes} : a.contains b = true ↔ a.bits &&& b.bits = b.bits := by
  cases b
  simp [contains, inter]

/-- Adding markers never takes one away. -/
theorem contains_union_of_contains {a c : Attributes} (b : Attributes) (h : a.contains c = true) :
    (a.union b).contains c = true := by
  rw [contains_iff] at h ⊢
  rw [union, BitVec.and_comm, BitVec.and_or_distrib_left]
  rw [BitVec.and_comm c.bits a.bits, h]
  ext i
  simp +contextual

end Attributes

end SsaForm
