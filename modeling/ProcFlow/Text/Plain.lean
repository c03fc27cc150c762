/-!
# Text without terminal controls

What a user typed is shown without anything that would steer the terminal: control characters, and the
sequences that an escape character opens. A tab or a line end inside a sequence is shown, and so is the
text that runs on from it; the sequence itself waits, and goes on after the next control character.
Main statements: what is left holds no control character but line ends, form feeds and tabs, and a text
that held none to begin with is left as it is.
-/

namespace ProcFlow.Text

def isLayout (c : Char) : Bool := c = '\t' || c = '\n' || c = '\x0c' || c = '\r'

/-- Whether a character leaves a terminal in peace. -/
def isPlain (c : Char) : Bool := isLayout c || (0x20 ≤ c.toNat && c != '\x7f')

def isWithin (low high : Nat) (c : Char) : Bool := low ≤ c.toNat && c.toNat ≤ high

/-- Whether one of the bytes of a character is the terminator of data strings. -/
def holdsTerminator (c : Char) : Bool := (String.utf8EncodeChar c).contains 0x9c

/-- What the next character belongs to. -/
inductive TerminalMode where
  | text
  | escape
  | designator
  /-- Parameters, up to the letter that says what to do. -/
  | control
  | title
  | device
  | deviceParameters
  | deviceDesignator
  | data
  deriving DecidableEq, Repr

namespace TerminalMode

def opened (c : Char) : TerminalMode :=
  if c = '[' then control
  else if c = ']' then title
  else if c = 'P' then device
  else if c = 'X' ∨ c = '^' ∨ c = '_' then data
  else if isWithin 0x20 0x2f c then designator
  else if isWithin 0x30 0x7e c then text
  else escape

def next (m : TerminalMode) (c : Char) : TerminalMode :=
  if c = '\x1b' then escape
  else if c = '\x18' ∨ c = '\x1a' then text
  else
    match m with
    | text => text
    | escape => opened c
    | designator => if isWithin 0x30 0x7e c then text else designator
    | control => if isWithin 0x40 0x7e c then text else control
    | title => if c = '\x07' then text else title
    | device =>
      if isWithin 0x20 0x2f c then deviceDesignator
      else if isWithin 0x30 0x3f c then deviceParameters
      else if isWithin 0x40 0x7e c then data
      else device
    | deviceParameters =>
      if isWithin 0x20 0x2f c then deviceDesignator
      else if isWithin 0x3c 0x7e c then data
      else deviceParameters
    | deviceDesignator => if isWithin 0x30 0x7e c then data else deviceDesignator
    | data => if holdsTerminator c then text else data

def shows (m : TerminalMode) (c : Char) : Bool :=
  match m with
  | text => isPlain c
  | escape | designator | control => isLayout c
  | title | device | deviceParameters | deviceDesignator | data => false

/-- The mode after a character that is shown. One beyond ASCII ends what is open, any other lets it
wait. -/
def afterShown (m : TerminalMode) (c : Char) : TerminalMode := if 0x80 ≤ c.toNat then text else m

/-- The characters that are shown, from a mode on. `running` says that the last one was shown: text then
runs on up to the next control character, whatever is open. -/
def shown (m : TerminalMode) (running : Bool) : List Char → List Char
  | [] => []
  | c :: rest =>
    if m.shows c || (running && isPlain c) then c :: shown (m.afterShown c) true rest
    else shown (m.next c) false rest

theorem isPlain_of_shows {m : TerminalMode} {c : Char} (h : m.shows c = true) : isPlain c = true := by
  cases m with
  | text => exact h
  | escape | designator | control =>
    have hl : isLayout c = true := h
    rw [isPlain, hl, Bool.true_or]
  | title | device | deviceParameters | deviceDesignator | data => exact absurd h Bool.false_ne_true

theorem isPlain_of_mem_shown {m : TerminalMode} {r : Bool} {s : List Char} {c : Char}
    (h : c ∈ m.shown r s) : isPlain c = true := by
  induction s generalizing m r with
  | nil => exact absurd h List.not_mem_nil
  | cons d rest ih =>
    rw [shown] at h
    split at h
    · next hd =>
      rcases List.mem_cons.1 h with rfl | hrest
      · rcases Bool.or_eq_true_iff.1 hd with hs | hr
        · exact isPlain_of_shows hs
        · exact (Bool.and_eq_true_iff.1 hr).2
      · exact ih hrest
    · exact ih h

theorem afterShown_text (c : Char) : text.afterShown c = text := by
  rw [afterShown, ite_self]

theorem shown_text_of_isPlain {r : Bool} {s : List Char} (h : ∀ c ∈ s, isPlain c = true) :
    text.shown r s = s := by
  induction s generalizing r with
  | nil => rfl
  | cons c rest ih =>
    have hc : text.shows c = true := h c List.mem_cons_self
    rw [shown, hc, Bool.true_or, if_pos rfl, afterShown_text,
      ih fun d hd => h d (List.mem_cons_of_mem c hd)]

end TerminalMode

def plain (s : String) : String := String.ofList (TerminalMode.text.shown false s.toList)

end ProcFlow.Text
