import Linemark.Diagnostic.Severity
import Mathlib.Data.List.TakeWhile

/-!
# Finding escape sequences

Output is read as a terminal would read it: `scan` goes through bytes from the left and tells the
escape sequences from the bytes that are shown. An escape sequence is ESC, `[`, digits and
semicolons, and `m`; an ESC that starts none is a byte like any other.

Scanning is compositional where no ESC is shown. Behind shown bytes, and behind a whole sequence,
it goes on as if it had started there (`scan_append_of_notMem`, `scan_escapeSequence_append`), so
what is scanned in output that was put together from such parts is known part by part.
-/

namespace Linemark

/-- What output is made of. -/
inductive Token
  /-- A byte that is shown. -/
  | shown (b : UInt8)
  /-- An escape sequence. -/
  | sequence (bs : Bytes)
  deriving DecidableEq, Repr

/-- The byte that is shown. -/
def Token.shown? : Token → Option UInt8
  | .shown b => some b
  | .sequence _ => none

/-- The escape sequence. -/
def Token.sequence? : Token → Option Bytes
  | .shown _ => none
  | .sequence bs => some bs

/-- A byte that can be among the parameters of an escape sequence: a digit or a semicolon. -/
def isParameter (b : UInt8) : Bool := (0x30 ≤ b && b ≤ 0x39) || b == 0x3B

/-- The parameters of the escape sequence that goes on behind an ESC, and what follows it. -/
def afterEscape? : Bytes → Option (Bytes × Bytes)
  | [] => none
  | b :: rest =>
    if b = 0x5B then
      match rest.dropWhile isParameter with
      | [] => none
      | c :: after => if c = 0x6D then some (rest.takeWhile isParameter, after) else none
    else none

private theorem length_lt_of_afterEscape? {input parameters after : Bytes}
    (h : afterEscape? input = some (parameters, after)) : after.length < input.length := by
  fun_cases afterEscape? input with
  | case1 => simp [afterEscape?] at h
  | case2 rest hdrop => simp [afterEscape?, hdrop] at h
  | case3 rest tail hdrop =>
    have hle := (List.dropWhile_suffix (l := rest) isParameter).length_le
    obtain ⟨-, rfl⟩ : rest.takeWhile isParameter = parameters ∧ tail = after := by
      simpa [afterEscape?, hdrop] using h
    rw [hdrop, List.length_cons] at hle
    rw [List.length_cons]
    omega
  | case4 rest c tail hdrop hc => simp [afterEscape?, hdrop, hc] at h
  | case5 b rest hb => simp [afterEscape?, hb] at h

/-- What bytes are made of. -/
def scan : Bytes → List Token
  | [] => []
  | b :: rest =>
    if b = escape then
      match _h : afterEscape? rest with
      | some (parameters, after) =>
        .sequence (escape :: 0x5B :: parameters ++ [0x6D]) :: scan after
      | none => .shown b :: scan rest
    else .shown b :: scan rest
termination_by bs => bs.length
decreasing_by
  · have := length_lt_of_afterEscape? _h
    simp only [List.length_cons]
    omega
  · simp
  · simp

/-- Bytes with the escape sequences deleted. -/
def stripped (bs : Bytes) : Bytes := (scan bs).filterMap Token.shown?

/-- The escape sequences among bytes, in order. -/
def sequences (bs : Bytes) : List Bytes := (scan bs).filterMap Token.sequence?

/-! ## Scanning part by part -/

@[simp] theorem scan_nil : scan [] = [] := by rw [scan]

private theorem scan_cons_of_ne {b : UInt8} (h : b ≠ escape) (rest : Bytes) :
    scan (b :: rest) = .shown b :: scan rest := by
  rw [scan, if_neg h]

/-- Behind shown bytes scanning goes on as from the start. -/
theorem scan_append_of_notMem {text : Bytes} (h : escape ∉ text) (rest : Bytes) :
    scan (text ++ rest) = text.map .shown ++ scan rest := by
  induction text with
  | nil => rfl
  | cons b text ih =>
    have hb : b ≠ escape := by
      rintro rfl
      exact h List.mem_cons_self
    have htext : escape ∉ text := fun hmem ↦ h (List.mem_cons_of_mem b hmem)
    rw [List.cons_append, scan_cons_of_ne hb, ih htext, List.map_cons, List.cons_append]

private theorem afterEscape?_append {parameters : Bytes} (h : parameters.all isParameter = true)
    (rest : Bytes) :
    afterEscape? (0x5B :: (parameters ++ 0x6D :: rest)) = some (parameters, rest) := by
  have hparameters : ∀ b ∈ parameters, isParameter b = true := List.all_eq_true.mp h
  have hm : isParameter 0x6D = false := by decide
  simp [afterEscape?, List.dropWhile_append_of_pos hparameters,
    List.takeWhile_append_of_pos hparameters, hm]

private theorem escapeSequence_eq (parameters : String) :
    escapeSequence parameters = escape :: 0x5B :: utf8 parameters ++ [0x6D] := by
  have hopen : utf8 "[" = [0x5B] := by decide
  have hclose : utf8 "m" = [0x6D] := by decide
  rw [escapeSequence, utf8_append, utf8_append, hopen, hclose]
  rfl

/-- Behind an escape sequence scanning goes on as from the start. -/
theorem scan_escapeSequence_append {parameters : String}
    (h : (utf8 parameters).all isParameter = true) (rest : Bytes) :
    scan (escapeSequence parameters ++ rest)
      = .sequence (escapeSequence parameters) :: scan rest := by
  have hbytes : escapeSequence parameters ++ rest
      = escape :: 0x5B :: (utf8 parameters ++ 0x6D :: rest) := by
    simp [escapeSequence_eq]
  rw [hbytes, scan, if_pos rfl]
  split
  next parameters' after hafter =>
    rw [afterEscape?_append h] at hafter
    obtain ⟨rfl, rfl⟩ : utf8 parameters = parameters' ∧ rest = after := by simpa using hafter
    rw [escapeSequence_eq]
  next hafter => simp [afterEscape?_append h] at hafter

end Linemark
