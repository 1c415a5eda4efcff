import ConstLookup.Emit.Header
import Mathlib.Data.Int.Bitwise

/-!
  The announced buffer sizes suffice (`announced_sizes_suffice`). The statements of a flag writer
  are run on a buffer of a given capacity, and a text that does not fit stops the run, so a run
  that comes to its end has never written past the buffer, at any of its statements.

  The bound does not depend on what the symbols in the statements stand for. If they stand for the
  values of the table, the run leaves the labels of the flags in the value (`writtenText_eq`).
-/

namespace ConstLookup

open ConstLookup.Text

/-! ## The longest label -/

theorem label_le_fold (es : List Entry) (m : Nat) :
    m ≤ es.foldl (fun m e => max m (e.label.utf8ByteSize + 1)) m ∧
      ∀ e ∈ es, e.label.utf8ByteSize + 1 ≤
        es.foldl (fun m e => max m (e.label.utf8ByteSize + 1)) m := by
  induction es generalizing m with
  | nil => exact ⟨Nat.le_refl _, nofun⟩
  | cons e es ih =>
    obtain ⟨start, rest⟩ := ih (max m (e.label.utf8ByteSize + 1))
    refine ⟨Nat.le_trans (Nat.le_max_left _ _) start, fun a ha => ?_⟩
    rcases List.mem_cons.mp ha with rfl | ha
    · exact Nat.le_trans (Nat.le_max_right _ _) start
    · exact rest a ha

/-- The label of any value fits, with its terminator, in the size of the longest label. -/
theorem LookupTable.labelOf_fits (t : LookupTable) (v : Int) :
    (t.labelOf v).utf8ByteSize + 1 ≤ t.maxLabelLength := by
  obtain ⟨unknown, labels⟩ := label_le_fold t.entries (unknownLabel.utf8ByteSize + 1)
  rw [labelOf]
  cases found : t.entries.find? (·.representative.value = v) with
  | none => exact unknown
  | some e => exact labels e (List.mem_of_find?_eq_some found)

namespace Emit

/-! ## Running statements -/

/-- Put a text with its terminator into a buffer of `capacity` bytes, if it fits. -/
def store (capacity : Nat) (text : String) : Option String :=
  if text.utf8ByteSize + 1 ≤ capacity then some text else none

theorem store_fits {capacity : Nat} {text : String} (h : text.utf8ByteSize + 1 ≤ capacity) :
    store capacity text = some text := if_pos h

section Run

/- What symbols stand for, the value whose flags are written, and the size of the buffer. -/
variable (symbols : String → Int) (n : Int) (capacity : Nat)

mutual

/-- What a statement leaves in the buffer, unless it writes past its end. -/
def Statement.run : Statement → String → Option String
  | .clear, _ => store capacity ""
  | .copy text, _ => store capacity text
  | .append text, buffer => store capacity (buffer ++ text)
  | .appendIfWritten text, buffer =>
    if buffer = "" then some buffer else store capacity (buffer ++ text)
  | .copyIfEmpty text, buffer => if buffer = "" then store capacity text else some buffer
  | .ifFlag symbol body, buffer =>
    if Int.land n (symbols symbol) = symbols symbol then Statement.runBody body buffer
    else some buffer
  | .ifZero body otherwise, buffer =>
    if n = 0 then Statement.runBody body buffer else Statement.runBody otherwise buffer
  | .block body, buffer => Statement.runBody body buffer

/-- What statements leave in the buffer, run one after the other. -/
def Statement.runBody : List Statement → String → Option String
  | [], buffer => some buffer
  | s :: rest, buffer =>
    match s.run buffer with
    | some written => Statement.runBody rest written
    | none => none

end

theorem Statement.runBody_cons (s : Statement) (rest : List Statement) (buffer : String) :
    Statement.runBody symbols n capacity (s :: rest) buffer =
      (s.run symbols n capacity buffer).bind (Statement.runBody symbols n capacity rest) := by
  rw [Statement.runBody]
  cases s.run symbols n capacity buffer <;> rfl

end Run

/-! ## The text for the flags of a value -/

/-- The flags of a table that are contained in a value. -/
def flagsIn (t : LookupTable) (n : Int) : List Entry :=
  (flagEntries t).filter fun e => Int.land n e.representative.value = e.representative.value

/-- The labels of entries, one after the other. -/
def joinLabels (es : List Entry) : String := maskSeparator.intercalate (es.map (·.label))

/-- The label for zero if `n` is zero and has one, else the text for the flags, or the label of
unknown values if that is empty. -/
def textOrUnknown (t : LookupTable) (n : Int) (flags : String) : String :=
  let text := match zeroEntry? t with
    | some e => if n = 0 then e.label else flags
    | none => flags
  if text = "" then unknownLabel else text

/-- The text for a value: the labels of all flags that it contains. -/
def maskText (t : LookupTable) (n : Int) : String := textOrUnknown t n (joinLabels (flagsIn t n))

/-! ## How long joined labels are -/

/-- Bytes for the labels of entries with a separator between any two. -/
def joinedBytes (es : List Entry) : Nat :=
  labelBytes es + maskSeparator.utf8ByteSize * (es.length - 1)

theorem joinLabels_size (es : List Entry) : (joinLabels es).utf8ByteSize = joinedBytes es := by
  induction es with
  | nil => rfl
  | cons e es ih =>
    cases es with
    | nil => simp [joinLabels, joinedBytes, labelBytes]
    | cons e' es =>
      have more : joinLabels (e :: e' :: es) = e.label ++ maskSeparator ++ joinLabels (e' :: es) :=
        String.intercalate_cons_cons
      rw [more, String.utf8ByteSize_append, String.utf8ByteSize_append, ih]
      simp only [joinedBytes, labelBytes, List.length_cons, Nat.add_sub_cancel, Nat.mul_succ]
      omega

theorem labelBytes_sublist {as bs : List Entry} (h : as.Sublist bs) :
    labelBytes as ≤ labelBytes bs := by
  induction h with
  | slnil => exact Nat.le_refl _
  | cons e _ ih => exact Nat.le_trans ih (Nat.le_add_left _ _)
  | cons_cons e _ ih => exact Nat.add_le_add_left ih _

theorem joinedBytes_sublist {as bs : List Entry} (h : as.Sublist bs) :
    joinedBytes as ≤ joinedBytes bs :=
  Nat.add_le_add (labelBytes_sublist h)
    (Nat.mul_le_mul_left _ (Nat.sub_le_sub_right h.length_le 1))

/-- The announced size holds whatever a flag writer may leave. -/
theorem maskMaxLength_spec (t : LookupTable) :
    joinedBytes (flagEntries t) + 1 ≤ maskMaxLength t ∧
      unknownLabel.utf8ByteSize + 1 ≤ maskMaxLength t ∧
      ∀ e, zeroEntry? t = some e → e.label.utf8ByteSize + 1 ≤ maskMaxLength t := by
  refine ⟨?_, Nat.le_max_right _ _, fun e zero => ?_⟩
  · exact Nat.le_trans (Nat.le_max_left _ _) (Nat.le_max_left _ _)
  · rw [maskMaxLength, zero]
    exact Nat.le_trans (Nat.le_max_right _ _) (Nat.le_max_left _ _)

theorem textOrUnknown_fits {t : LookupTable} (n : Int) {flags : String}
    (h : flags.utf8ByteSize + 1 ≤ maskMaxLength t) :
    (textOrUnknown t n flags).utf8ByteSize + 1 ≤ maskMaxLength t := by
  obtain ⟨-, unknown, zero⟩ := maskMaxLength_spec t
  unfold textOrUnknown
  extract_lets text
  have fits : text.utf8ByteSize + 1 ≤ maskMaxLength t := by
    unfold text
    split
    next e found =>
      split
      · exact zero e found
      · exact h
    next => exact h
  split
  · exact unknown
  · exact fits

theorem maskText_fits (t : LookupTable) (n : Int) :
    (maskText t n).utf8ByteSize + 1 ≤ maskMaxLength t := by
  refine textOrUnknown_fits n ?_
  rw [joinLabels_size]
  exact Nat.le_trans (Nat.succ_le_succ (joinedBytes_sublist List.filter_sublist))
    (maskMaxLength_spec t).1

/-! ## The flags that are written -/

/-- The buffer after a label is written behind what it holds. -/
def extended (buffer label : String) : String :=
  if buffer = "" then label else buffer ++ maskSeparator ++ label

/-- The buffer after the labels of the entries whose symbols stand for bits of `n`. -/
def written (symbols : String → Int) (n : Int) : List Entry → String → String
  | [], buffer => buffer
  | e :: es, buffer =>
    if Int.land n (symbols e.representative.name) = symbols e.representative.name then
      written symbols n es (extended buffer e.label)
    else written symbols n es buffer

/-- Bytes for what a buffer holds and all entries that may still be written into it. A label that
comes first has no separator before it. -/
def needed (buffer : String) (es : List Entry) : Nat :=
  if buffer = "" then joinedBytes es
  else buffer.utf8ByteSize + labelBytes es + maskSeparator.utf8ByteSize * es.length

theorem size_le_needed (buffer : String) (es : List Entry) :
    buffer.utf8ByteSize ≤ needed buffer es := by
  rw [needed]
  split
  next empty => simp [empty]
  next => omega

theorem needed_skip (buffer : String) (e : Entry) (es : List Entry) :
    needed buffer es ≤ needed buffer (e :: es) := by
  rw [needed, needed]
  split
  · exact joinedBytes_sublist (List.sublist_cons_self e es)
  · simp only [labelBytes, List.length_cons, Nat.mul_succ]
    omega

theorem needed_extended (buffer : String) (e : Entry) (es : List Entry) :
    needed (extended buffer e.label) es ≤ needed buffer (e :: es) := by
  by_cases empty : buffer = ""
  · simp only [extended, empty, if_true, needed]
    by_cases none : e.label = ""
    · rw [if_pos none]
      exact joinedBytes_sublist (List.sublist_cons_self e es)
    · rw [if_neg none, joinedBytes, labelBytes, List.length_cons, Nat.add_sub_cancel]
  · have more : buffer ++ maskSeparator ++ e.label ≠ "" := by simp [empty]
    rw [extended, if_neg empty, needed, if_neg more, needed, if_neg empty, labelBytes,
      List.length_cons, Nat.mul_succ, String.utf8ByteSize_append, String.utf8ByteSize_append]
    omega

section Flags

variable (symbols : String → Int) (n : Int) {capacity : Nat}

theorem written_size (es : List Entry) (buffer : String) :
    (written symbols n es buffer).utf8ByteSize ≤ needed buffer es := by
  induction es generalizing buffer with
  | nil => exact size_le_needed buffer []
  | cons e es ih =>
    rw [written]
    split
    · exact Nat.le_trans (ih _) (needed_extended buffer e es)
    · exact Nat.le_trans (ih _) (needed_skip buffer e es)

/-- The statements for one flag write its label, if there is room. -/
theorem flagBody_run {buffer label : String}
    (room : (extended buffer label).utf8ByteSize + 1 ≤ capacity) :
    Statement.runBody symbols n capacity [.appendIfWritten maskSeparator, .append label] buffer =
      some (extended buffer label) := by
  by_cases empty : buffer = ""
  · simp only [empty, extended, if_true] at room ⊢
    simp [Statement.runBody, Statement.run, store_fits room]
  · rw [extended, if_neg empty] at room ⊢
    have front : (buffer ++ maskSeparator).utf8ByteSize + 1 ≤ capacity := by
      rw [String.utf8ByteSize_append] at room
      omega
    simp [empty, Statement.runBody, Statement.run, store_fits front, store_fits room]

/-- The statements for flags write the labels of those in `n`, if there is room for all. -/
theorem flags_run (es : List Entry) (buffer : String) (room : needed buffer es + 1 ≤ capacity) :
    Statement.runBody symbols n capacity (es.map flagStatement) buffer =
      some (written symbols n es buffer) := by
  induction es generalizing buffer with
  | nil => rfl
  | cons e es ih =>
    rw [List.map_cons, Statement.runBody_cons, flagStatement, Statement.run, written]
    by_cases flag : Int.land n (symbols e.representative.name) = symbols e.representative.name
    · have after : needed (extended buffer e.label) es + 1 ≤ capacity :=
        Nat.le_trans (Nat.succ_le_succ (needed_extended buffer e es)) room
      have label := Nat.le_trans (Nat.succ_le_succ (size_le_needed _ es)) after
      rw [if_pos flag, if_pos flag, flagBody_run symbols n label]
      exact ih _ after
    · rw [if_neg flag, if_neg flag]
      exact ih _ (Nat.le_trans (Nat.succ_le_succ (needed_skip buffer e es)) room)

/-- What a flag writer leaves in the buffer. -/
def writtenText (t : LookupTable) : String :=
  textOrUnknown t n (written symbols n (flagEntries t) "")

theorem writtenText_fits (t : LookupTable) :
    (writtenText symbols n t).utf8ByteSize + 1 ≤ maskMaxLength t :=
  textOrUnknown_fits n (Nat.le_trans (Nat.succ_le_succ (written_size symbols n _ ""))
    (maskMaxLength_spec t).1)

/-- A flag writer never writes past a buffer of the announced size. -/
theorem maskStatements_run (t : LookupTable) (buffer : String) :
    Statement.runBody symbols n (maskMaxLength t) (maskStatements t) buffer =
      some (writtenText symbols n t) := by
  obtain ⟨all, unknown, zero⟩ := maskMaxLength_spec t
  have clear : store (maskMaxLength t) "" = some "" :=
    store_fits (Nat.le_trans (by decide) unknown)
  have flags := flags_run symbols n (flagEntries t) "" all
  have last (text : String) : Statement.runBody symbols n (maskMaxLength t)
      [.copyIfEmpty unknownLabel] text = some (if text = "" then unknownLabel else text) := by
    by_cases empty : text = "" <;>
      simp [Statement.runBody, Statement.run, empty, store_fits unknown]
  rw [maskStatements, Statement.runBody_cons, Statement.run, clear, Option.bind_some,
    Statement.runBody_cons, writtenText, textOrUnknown]
  cases found : zeroEntry? t with
  | none =>
    dsimp only
    rw [Statement.run, flags]
    exact last _
  | some e =>
    have label : Statement.runBody symbols n (maskMaxLength t) [.copy e.label] "" =
        some e.label := by
      simp [Statement.runBody, Statement.run, store_fits (zero e found)]
    dsimp only
    rw [Statement.run, label, flags]
    split
    · exact last _
    · exact last _

end Flags

/-! ## The text that is written -/

section Text

variable {symbols : String → Int} {n : Int}

/-- The labels of flags are joined, if symbols stand for the values and no label is empty. -/
theorem written_eq (es : List Entry)
    (values : ∀ e ∈ es, symbols e.representative.name = e.representative.value)
    (labels : ∀ e ∈ es, e.label ≠ "") (buffer : String) :
    written symbols n es buffer =
      maskSeparator.intercalate ((if buffer = "" then [] else [buffer]) ++
        (es.filter fun e => Int.land n e.representative.value = e.representative.value).map
          (·.label)) := by
  induction es generalizing buffer with
  | nil => by_cases empty : buffer = "" <;> simp [written, empty]
  | cons e es ih =>
    obtain ⟨value, values⟩ := List.forall_mem_cons.mp values
    obtain ⟨label, labels⟩ := List.forall_mem_cons.mp labels
    rw [written, value, List.filter_cons]
    by_cases flag : Int.land n e.representative.value = e.representative.value
    · rw [if_pos flag, ih values labels]
      by_cases empty : buffer = ""
      · simp [extended, empty, label, flag]
      · simp [extended, empty, flag, String.intercalate_cons_cons,
          String.append_assoc]
    · rw [if_neg flag, ih values labels]
      simp [flag]

theorem writtenText_eq {t : LookupTable}
    (values : ∀ e ∈ t.entries, symbols e.representative.name = e.representative.value)
    (labels : ∀ e ∈ t.entries, e.label ≠ "") : writtenText symbols n t = maskText t n := by
  have flags : written symbols n (flagEntries t) "" = joinLabels (flagsIn t n) := by
    have joined := written_eq (n := n) (flagEntries t)
      (fun e he => values e (List.mem_filter.mp he).1)
      (fun e he => labels e (List.mem_filter.mp he).1) ""
    rw [joined]
    rfl
  rw [writtenText, flags]
  rfl

end Text

/-! ## The announced sizes -/

/-- The code starts with the line that announces a size under a name. -/
def Announces (code name : String) (size : Nat) : Prop :=
  ∃ rest, code = s!"#define {name} ({size})\n" ++ rest

theorem announces_sizeLine {suffix name : String} (t : LookupTable) (size : Nat) (rest : String)
    (h : name = upper t.name ++ "_" ++ suffix) :
    Announces (sizeLine t.name suffix size ++ "\n" ++ rest) name size :=
  ⟨rest, by simp [h, sizeLine, String.append_assoc, toString]⟩

theorem renderMacro_announces {t : LookupTable} (h : t.entries ≠ []) :
    Announces (renderMacro t) s!"{upper t.name}_MAX_LEN" t.maxLabelLength := by
  rw [renderMacro, if_neg (by simpa using h), maxLengthLine]
  exact announces_sizeLine t _ _ (by rw [String.append_assoc]; rfl)

theorem renderInline_announces {t : LookupTable} (h : t.entries ≠ []) (type : IntType) :
    Announces (renderInline t type) s!"{upper t.name}_MAX_LEN" t.maxLabelLength := by
  rw [renderInline, if_neg (by simpa using h), inlineLines, maxLengthLine]
  simp only [List.cons_append]
  rw [String.intercalate_cons_cons]
  exact announces_sizeLine t _ _ (by rw [String.append_assoc]; rfl)

theorem renderMask_announces {t : LookupTable} (h : t.entries ≠ []) (type : Option IntType) :
    Announces (renderMask t type) s!"{upper t.name}_MASK_MAX_LEN" (maskMaxLength t) := by
  unfold renderMask
  rw [if_neg (by simpa using h), maskMaxLengthLine]
  exact announces_sizeLine t _ _ (by rw [String.append_assoc]; rfl)

theorem Announces.append {code name : String} {size : Nat} (h : Announces code name size)
    (more : String) : Announces (code ++ more) name size := by
  obtain ⟨rest, rfl⟩ := h
  exact ⟨rest ++ more, String.append_assoc⟩

theorem renderTable_announces {t : LookupTable} (h : t.entries ≠ []) (o : Options) :
    Announces (renderTable o t) s!"{upper t.name}_MAX_LEN" t.maxLabelLength := by
  unfold renderTable
  extract_lets type code
  have value : Announces code s!"{upper t.name}_MAX_LEN" t.maxLabelLength := by
    dsimp only [code, type]
    cases o.inlineType t with
    | none => exact renderMacro_announces h
    | some type => exact renderInline_announces h type
  split
  · rw [String.append_assoc]
    exact value.append _
  · exact value

/-- The announced sizes of a table suffice: the label of any value fits in the first one, and a
flag writer stays, with every statement that it runs, inside a buffer of the second one, whatever
its symbols stand for. If they stand for the values of the table, it leaves the text for the flags
of the value. -/
theorem announced_sizes_suffice (t : LookupTable) (h : t.entries ≠ []) :
    (∃ size, (∀ o, Announces (renderTable o t) s!"{upper t.name}_MAX_LEN" size) ∧
      ∀ n, (t.labelOf n).utf8ByteSize + 1 ≤ size) ∧
    ∃ size, (∀ type, Announces (renderMask t type) s!"{upper t.name}_MASK_MAX_LEN" size) ∧
      (∀ n, (maskText t n).utf8ByteSize + 1 ≤ size) ∧
      ∀ symbols n buffer, ∃ text,
        Statement.runBody symbols n size (maskStatements t) buffer = some text ∧
          text.utf8ByteSize + 1 ≤ size ∧
          ((∀ e ∈ t.entries, symbols e.representative.name = e.representative.value) →
            (∀ e ∈ t.entries, e.label ≠ "") → text = maskText t n) := by
  refine ⟨⟨t.maxLabelLength, renderTable_announces h, t.labelOf_fits⟩,
    maskMaxLength t, renderMask_announces h, maskText_fits t, fun symbols n buffer => ?_⟩
  exact ⟨writtenText symbols n t, maskStatements_run symbols n t buffer,
    writtenText_fits symbols n t, writtenText_eq⟩

/-- Rights that overlap, one of which has no bits. -/
def rights : LookupTable where
  name := "rights"
  origin := .enumeration
  entries := [⟨"NONE", "NONE", 0⟩, ⟨"READ", "READ", 1⟩, ⟨"WRITE", "WRITE", 2⟩, ⟨"BOTH", "BOTH", 3⟩]
  intType := some ⟨8, false⟩
  isMask := true

/-- What the names of rights stand for. -/
def rightsValue (name : String) : Int :=
  ((rights.entries.find? (·.representative.name = name)).map (·.representative.value)).getD 0

theorem announced_sizes_suffice_rights :
    rights.entries ≠ [] ∧ (∀ e ∈ rights.entries,
      rightsValue e.representative.name = e.representative.value ∧ e.label ≠ "") ∧
    ∃ size, (∀ type, Announces (renderMask rights type) s!"{upper rights.name}_MASK_MAX_LEN" size) ∧
      Statement.runBody rightsValue 7 size (maskStatements rights) "old" =
        some "READ | WRITE | BOTH" := by
  have values : ∀ e ∈ rights.entries,
      rightsValue e.representative.name = e.representative.value ∧ e.label ≠ "" := by decide
  have text : maskText rights 7 = "READ | WRITE | BOTH" := by decide +kernel
  obtain ⟨-, size, announces, -, runs⟩ := announced_sizes_suffice rights (by decide)
  obtain ⟨_, run, -, same⟩ := runs rightsValue 7 "old"
  refine ⟨by decide, values, size, announces, ?_⟩
  rw [run, same (fun e he => (values e he).1) (fun e he => (values e he).2), text]

end Emit

end ConstLookup
