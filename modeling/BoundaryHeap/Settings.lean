import BoundaryHeap.Arena.Basic
import BoundaryHeap.Geometry
import BoundaryHeap.Text

/-!
# Settings of a heap

How large a heap may grow, in which steps, and what its audit does with the violations it finds.
A record of settings says nothing about whether a heap can be made from it; `refusal?` does.

Three variables of the environment override the default settings. A variable that is not set, is not
text, or does not say anything that can be used is passed over: reading the environment never fails.
The values are byte strings, since nothing makes an environment hold text.
-/

set_option autoImplicit false

namespace BoundaryHeap

/-- What an audit does with violations. -/
inductive CheckMode where
  /-- Report each as an error and stop at the first. -/
  | strict
  /-- Report each as a warning. -/
  | lenient
deriving DecidableEq

/-- The step of a heap that nothing else is said of. -/
def defaultChunk : Nat := 4096

/-- What a heap is made from. -/
structure Settings where
  reserved : Nat := Arena.defaultReserved
  /-- The heap grows by at least this many bytes, and by this many when it is made. -/
  chunk : Nat := defaultChunk
  mode : CheckMode := .lenient
deriving DecidableEq

namespace Settings

/-- What is wrong with the settings, if anything is. The ceiling is looked at first. -/
def refusal? (s : Settings) : Option HeapError :=
  match Arena.refusal? s.reserved with
  | some e => some (.arena e)
  | none =>
    if s.chunk < minBlockSize ∨ s.chunk % alignment ≠ 0 then
      some (.invalidConfig
        s!"chunk_size must be a multiple of {alignment} and >= {minBlockSize} (got {s.chunk})")
    else none

/-- A heap can be made from the settings, if the arena has room. -/
structure Valid (s : Settings) : Prop where
  reserved_pos : 0 < s.reserved
  reserved_mod : s.reserved % 16 = 0
  chunk_ge : 32 ≤ s.chunk
  chunk_mod : s.chunk % 16 = 0

theorem refusal?_eq_none_iff {s : Settings} : s.refusal? = none ↔ s.Valid := by
  unfold refusal? Arena.refusal?
  simp only [Arena.granule, minBlockSize, alignment]
  constructor
  · intro h
    by_cases zero : s.reserved = 0
    · simp [zero] at h
    · by_cases mod : s.reserved % 16 = 0
      · simp [zero, mod] at h
        exact ⟨by omega, mod, by omega, by omega⟩
      · simp [zero, mod] at h
  · rintro ⟨pos, mod, ge, mod'⟩
    have zero : s.reserved ≠ 0 := by omega
    simp [zero, mod, mod', ge]

end Settings

/-! ## Settings from the environment -/

/-- The value of each variable that is set. -/
abbrev Environment := String → Option ByteArray

namespace Environment

/-- The value of a variable, if it is set to text. -/
def text? (env : Environment) (name : String) : Option String :=
  (env name).bind String.fromUTF8?

/-- The value of a variable as a number that a word can hold. Blanks around it do not matter. -/
def word? (env : Environment) (name : String) : Option Nat :=
  (env.text? name).bind fun s => Text.numeralBelow? wordLimit (Text.trimBlanks s.toList)

/-- Whether a variable is set to `1` or, in any case, to `true`. Blanks do matter. -/
def flag (env : Environment) (name : String) : Bool :=
  match env.text? name with
  | some s => s == "1" || s.map Char.toLower == "true"
  | none => false

end Environment

/-- The default settings with what the environment says instead. -/
def Settings.ofEnvironment (env : Environment) : Settings where
  reserved := (env.word? "TAGHEAP_ARENA_BYTES").getD Arena.defaultReserved
  chunk := (env.word? "TAGHEAP_CHUNK_SIZE").getD defaultChunk
  mode := if env.flag "TAGHEAP_STRICT" then .strict else .lenient

end BoundaryHeap
