import Mathlib.Data.List.TakeDrop
import VectorVrl.ConfigCheck
import VectorVrl.Proofs.Snapshot

namespace VectorVrl.Proofs.ConfigCheck
open Lib.Lines Nesting Proofs.Lookup Proofs.Snapshot

theorem split_unbroken {text : List Char} (h : Unbroken text) (hne : text ≠ []) :
    splitLines text = [text] ∧ splitLines (text ++ ['\n']) = [text] := by
  unfold splitLines
  refine ⟨?_, ?_⟩
  · have hsplit := split_from_unbroken h [] []
    rw [List.append_nil, List.nil_append] at hsplit
    rw [hsplit, split_from_nil]
    exact if_neg hne
  · rw [split_from_unbroken h, List.nil_append, split_from_newline]
    rfl

/-- A text without breaks takes the first line of what follows into its own. -/
theorem split_after_unbroken {text : List Char} (h : Unbroken text) (hne : text ≠ [])
    (rest : List Char) :
    ∃ first, splitLines (text ++ rest) = (text ++ first) :: (splitLines rest).tail := by
  obtain ⟨first, hfirst⟩ := split_from_begun rest
  refine ⟨first, ?_⟩
  unfold splitLines
  rw [split_from_unbroken h, List.nil_append, hfirst text hne]

theorem single_line {text : List Char} (h : Unbroken text) (hne : text ≠ []) (last : Bool) :
    splitLines (text ++ if last then [] else ['\n']) = [text] := by
  obtain ⟨hlast, hmore⟩ := split_unbroken h hne
  cases last with
  | true => rw [if_pos rfl, List.append_nil, hlast]
  | false => rw [if_neg (by simp), hmore]

/-- The loop excuses a text exactly when each of its lines is an excuse. -/
theorem excuse_iff (lines : List (List Char)) (leftOut : List String) (unregistered : Bool) :
    (excuse lines leftOut unregistered).isSome = true ↔ ∀ line ∈ lines, ExcusableLine line := by
  induction lines generalizing leftOut unregistered with
  | nil => simp [excuse]
  | cons line rest ih =>
    rw [List.forall_mem_cons, excuse]
    have hname : (∃ name ∈ sandboxed, undefinedFunction line = some name) ↔
        ((undefinedFunction line).filter (· ∈ sandboxed)).isSome = true := by
      cases undefinedFunction line with
      | none => simp
      | some name => by_cases hm : name ∈ sandboxed <;> simp [Option.filter, hm]
    have hline : ExcusableLine line ↔
        ((undefinedFunction line).filter (· ∈ sandboxed)).isSome = true ∨
          unknownTable line = true := or_congr_left hname
    rw [hline]
    cases (undefinedFunction line).filter (· ∈ sandboxed) with
    | some name => simp [ih]
    | none => cases unknownTable line <;> simp [ih]

/-- What the loop leaves says why: it has left something out or missed a table. -/
theorem excuse_found {lines : List (List Char)} {leftOut found : List String}
    {unregistered missing : Bool} (h : excuse lines leftOut unregistered = some (found, missing))
    (hsome : lines ≠ [] ∨ leftOut ≠ [] ∨ unregistered = true) : found ≠ [] ∨ missing = true := by
  induction lines generalizing leftOut unregistered with
  | nil =>
    rw [excuse, Option.some.injEq, Prod.mk.injEq] at h
    obtain ⟨rfl, rfl⟩ := h
    exact hsome.resolve_left fun hne => hne rfl
  | cons line rest ih =>
    rw [excuse] at h
    split at h
    · refine ih h (Or.inr (Or.inl ?_))
      split
      · rename_i hmem
        exact List.ne_nil_of_mem hmem
      · simp
    · split at h
      · exact ih h (Or.inr (Or.inr rfl))
      · cases h

theorem reasons_ne (vrl : String) {leftOut : List String} {unregistered : Bool}
    (h : leftOut ≠ [] ∨ unregistered = true) :
    "; ".intercalate ((if unregistered then [unregisteredReason vrl] else []) ++
      (if leftOut = [] then [] else [leftOutReason leftOut])) ≠ "" := by
  have hmissing : unregisteredReason vrl ≠ "" := by simp [unregisteredReason, toString]
  have hleft : leftOutReason leftOut ≠ "" := by simp [leftOutReason, toString]
  cases unregistered with
  | true =>
    by_cases hnil : leftOut = []
    · simpa [hnil] using hmissing
    · simp [hnil, hmissing]
  | false =>
    have hnil := h.resolve_right (by simp)
    simpa [hnil] using hleft

/-- A reason is given exactly when there is an error and each of its lines is an excuse. -/
theorem reason_some_iff (vrl error : String) :
    (uncompilableReason vrl (some error)).isSome = true ↔
      error ≠ "" ∧ ∀ line ∈ splitLines error.toList, ExcusableLine line := by
  rw [uncompilableReason]
  by_cases hempty : error = ""
  · simp [hempty]
  · have hlines : splitLines error.toList ≠ [] := by
      apply split_lines_ne
      exact fun h => hempty (String.toList_eq_nil_iff.mp h)
    rw [if_neg hempty, ← excuse_iff _ [] false]
    cases he : excuse (splitLines error.toList) [] false with
    | none => simp
    | some found =>
      have hne := reasons_ne vrl (excuse_found he (Or.inl hlines))
      simp [hempty, hne]

theorem digit_unbroken : ∀ n < 16, isLineBreak (Nat.digitChar n) = false := by decide

theorem digits_unbroken (fuel n : Nat) {ds : List Char} (h : Unbroken ds) :
    Unbroken (Nat.toDigitsCore 16 fuel n ds) := by
  induction fuel generalizing n ds with
  | zero => exact h
  | succ fuel ih =>
    have hcons : Unbroken (Nat.digitChar (n % 16) :: ds) := by
      intro c hc
      rcases List.mem_cons.mp hc with rfl | hc
      · exact digit_unbroken _ (Nat.mod_lt n (by decide))
      · exact h c hc
    rw [Nat.toDigitsCore]
    split
    · exact hcons
    · exact ih _ hcons

theorem control_of_break {c : Char} (h : isLineBreak c = true) : isControl c = true := by
  simp only [isLineBreak, Bool.or_eq_true, decide_eq_true_eq] at h
  rcases h with ((((((((rfl | rfl) | rfl) | rfl) | rfl) | rfl) | rfl) | rfl) | rfl) | rfl <;>
    decide

theorem unbroken_append {a b : List Char} (ha : Unbroken a) (hb : Unbroken b) :
    Unbroken (a ++ b) := by
  intro c hc
  rcases List.mem_append.mp hc with h | h
  · exact ha c h
  · exact hb c h

theorem intercalate_unbroken {names : List String} (h : ∀ name ∈ names, Unbroken name.toList) :
    Unbroken (", ".intercalate names).toList := by
  induction names with
  | nil => decide
  | cons name rest ih =>
    have hrest := ih fun n hn => h n (List.mem_cons_of_mem name hn)
    by_cases hnil : rest = []
    · rw [hnil, String.intercalate_singleton]
      exact h name List.mem_cons_self
    · rw [String.intercalate_cons_of_ne_nil hnil, String.toList_append, String.toList_append]
      exact unbroken_append (unbroken_append (h name List.mem_cons_self) (by decide)) hrest

theorem names_harmless_cons (r : Report) (reports : List Report) :
    NamesHarmless (r :: reports) ↔
      (∀ e, r = .unknownTable e → ∀ line ∈ furtherLines e reports.isEmpty, ExcusableLine line) ∧
        NamesHarmless reports := by
  constructor
  · intro h
    refine ⟨fun e he => h [] e reports (by rw [he]; rfl), fun before e after heq => ?_⟩
    exact h (r :: before) e after (by rw [heq]; rfl)
  · rintro ⟨hfirst, hrest⟩ before e after heq
    cases before with
    | nil =>
      cases heq
      exact hfirst e rfl
    | cons _ before =>
      cases heq
      exact hrest before e after rfl

/-- Names without line breaks break nothing off a message. -/
theorem names_harmless_of_unbroken {reports : List Report}
    (h : ∀ e, Report.unknownTable e ∈ reports → ∀ name ∈ e.registered, Unbroken name.toList) :
    NamesHarmless reports := by
  intro before e after heq line hline
  have hmem : Report.unknownTable e ∈ reports := by
    rw [heq]
    exact List.mem_append_right before List.mem_cons_self
  have hnames := intercalate_unbroken (h e hmem)
  have hfurther : furtherLines e after.isEmpty = [] := by
    unfold furtherLines
    by_cases hnil : (", ".intercalate e.registered).toList = []
    · rw [hnil]
      cases after.isEmpty <;> rfl
    · obtain ⟨hlast, hmore⟩ := split_unbroken hnames hnil
      cases after.isEmpty with
      | true => rw [if_pos rfl, List.append_nil, hlast, List.tail_cons]
      | false => rw [if_neg (by simp), hmore, List.tail_cons]
  rw [hfurther] at hline
  cases hline

theorem undefined_spec {line : List Char} {name : String} (h : undefinedFunction line = some name) :
    line = undefinedPrefix.toList ++ name.toList ++ ['\u0060'] := by
  unfold undefinedFunction at h
  split at h
  · rename_i hprefix
    obtain ⟨rest, rfl⟩ := hprefix
    have hdrop : (undefinedPrefix.toList ++ rest).drop undefinedPrefix.length = rest :=
      List.drop_left' rfl
    simp only [hdrop, List.span_eq_takeWhile_dropWhile] at h
    split at h
    · rename_i hspan
      cases h
      have happ := List.takeWhile_append_dropWhile (p := fun c : Char => decide (c ≠ '\u0060'))
        (l := rest)
      rw [hspan.2] at happ
      rw [String.toList_ofList, List.append_assoc, happ]
    · cases h
  · cases h

theorem sandboxed_read : ∀ name ∈ sandboxed,
    undefinedFunction (undefinedPrefix.toList ++ name.toList ++ ['\u0060']) = some name := by
  decide

/-- An undefined-function line excuses its source exactly when it names a sandboxed function. -/
theorem undefined_line_iff (name : String) :
    ExcusableLine (undefinedPrefix.toList ++ name.toList ++ ['\u0060']) ↔ name ∈ sandboxed := by
  constructor
  · rintro (⟨found, hmem, hfound⟩ | htable)
    · have heq := undefined_spec hfound
      rw [List.append_cancel_right_eq, List.append_cancel_left_eq, String.toList_inj] at heq
      exact heq ▸ hmem
    · have hprefix : unknownTablePrefix.toList <+: undefinedPrefix.toList ++ name.toList ++
          ['\u0060'] := of_decide_eq_true htable
      obtain ⟨rest, hrest⟩ := hprefix
      have hhead := congrArg List.head? hrest
      rw [List.append_assoc, List.head?_append, List.head?_append] at hhead
      have hfirst : unknownTablePrefix.toList.head? = some 'f' := by decide
      have hfirst' : undefinedPrefix.toList.head? = some 'c' := by decide
      rw [hfirst, hfirst'] at hhead
      cases hhead
  · intro hmem
    exact Or.inl ⟨name, hmem, sandboxed_read name hmem⟩

theorem table_prefix_eq :
    compilationPrefix 111 ++ "unknown enrichment table " = unknownTablePrefix := by
  decide

theorem diagnostic_text_other {message : String} (h : message ≠ "call to undefined function")
    (labels : List Label) (vrlCode : String) :
    diagnosticText ⟨message, labels⟩ vrlCode = message := by
  simp only [diagnosticText, ne_eq, h, not_false_eq_true, if_true]

theorem diagnostic_text_undefined (labels : List Label) (vrlCode : String) :
    diagnosticText ⟨"call to undefined function", labels⟩ vrlCode =
      match calledName labels vrlCode with
      | some name => s!"call to undefined function `{name}`"
      | none => "call to undefined function" := by
  rfl

section
variable [Libraries]

theorem escape_unbroken (c : Char) : Unbroken (escapeDebug c) := by
  unfold escapeDebug
  split
  · decide
  split
  · decide
  split
  · decide
  split
  · decide
  split
  · rename_i hquoted
    simp only [Bool.or_eq_true, decide_eq_true_eq] at hquoted
    rcases hquoted with rfl | rfl <;> decide
  split
  · rename_i hprinted
    intro x hx
    rw [List.mem_singleton.mp hx]
    cases hb : isLineBreak c with
    | false => rfl
    | true => simp [control_of_break hb] at hprinted
  · have hdigits : Unbroken (Nat.toDigits 16 c.toNat) := digits_unbroken _ _ (by decide)
    exact unbroken_append (a := ['\\', 'u', '\x7b']) (by decide)
      (unbroken_append hdigits (by decide))

theorem debug_unbroken (s : String) : Unbroken (debugStr s).toList := by
  intro x hx
  rw [debugStr, String.toList_ofList, List.mem_cons, List.mem_append] at hx
  rcases hx with rfl | hx | hx
  · decide
  · obtain ⟨c, _, hc⟩ := List.mem_flatMap.mp hx
    exact escape_unbroken c x hc
  · rw [List.mem_singleton.mp hx]
    decide

/-- The part of an unknown-table message before the registered names. -/
theorem display_split (e : UnknownTable) : ∃ head : List Char, Unbroken head ∧
    e.display.toList = "unknown enrichment table ".toList ++ head ++
      (", ".intercalate e.registered).toList := by
  unfold UnknownTable.display
  cases hr : e.registered with
  | nil =>
    refine ⟨(debugStr e.table).toList ++ ": no enrichment tables are registered".toList,
      unbroken_append (debug_unbroken e.table) (by decide), ?_⟩
    simp [toString]
  | cons name rest =>
    refine ⟨(debugStr e.table).toList ++ "; registered tables: ".toList,
      unbroken_append (debug_unbroken e.table) (by decide), ?_⟩
    simp [toString]

theorem unknown_text (e : UnknownTable) (vrlCode : String) :
    ∃ head : List Char, Unbroken head ∧
      (diagnosticText (Report.unknownTable e).diagnostic vrlCode).toList =
        unknownTablePrefix.toList ++ head ++ (", ".intercalate e.registered).toList := by
  obtain ⟨head, hhead, hdisplay⟩ := display_split e
  have htext : (compilationPrefix e.code ++ e.display).toList =
      unknownTablePrefix.toList ++ head ++ (", ".intercalate e.registered).toList := by
    rw [String.toList_append, hdisplay, ← table_prefix_eq, String.toList_append,
      List.append_assoc, List.append_assoc, List.append_assoc]
    rfl
  refine ⟨head, hhead, ?_⟩
  have hother : compilationPrefix e.code ++ e.display ≠ "call to undefined function" := by
    intro heq
    have hprefix : unknownTablePrefix.toList <+: "call to undefined function".toList := by
      rw [← heq, htext, List.append_assoc]
      exact List.prefix_append _ _
    exact absurd hprefix (by decide)
  rw [Report.diagnostic, diagnostic_text_other hother, htext]

theorem undefined_lines {labels : List Label} {vrlCode : String}
    (hdoc : (Report.undefinedFunction labels).AsDocumented vrlCode) (last : Bool) :
    (∀ line ∈ (Report.undefinedFunction labels).lines vrlCode last, ExcusableLine line) ↔
      (Report.undefinedFunction labels).Excusable vrlCode := by
  unfold Report.lines
  rw [Report.diagnostic, diagnostic_text_undefined]
  cases hname : calledName labels vrlCode with
  | some name =>
    have htext : (s!"call to undefined function `{name}`").toList =
        undefinedPrefix.toList ++ name.toList ++ ['\u0060'] := by
      simp [toString, undefinedPrefix]
    have hline : Unbroken (undefinedPrefix.toList ++ name.toList ++ ['\u0060']) :=
      unbroken_append (unbroken_append (by decide) (hdoc name hname)) (by decide)
    simp only [htext]
    rw [single_line hline (by simp), List.forall_mem_singleton, undefined_line_iff]
    simp [Report.Excusable, hname]
  | none =>
    have hreal : ¬ExcusableLine "call to undefined function".toList := by
      decide
    simp only
    rw [single_line (by decide) (by decide), List.forall_mem_singleton]
    apply iff_of_false hreal
    simp [Report.Excusable, hname]

/-- The first line of an unknown-table message is an excuse, so all of them are
exactly when the further ones are. -/
theorem unknown_table_lines (e : UnknownTable) (vrlCode : String) (last : Bool) :
    (∀ line ∈ (Report.unknownTable e).lines vrlCode last, ExcusableLine line) ↔
      ∀ line ∈ furtherLines e last, ExcusableLine line := by
  obtain ⟨head, hhead, htext⟩ := unknown_text e vrlCode
  have hstart : Unbroken (unknownTablePrefix.toList ++ head) :=
    unbroken_append (by decide) hhead
  obtain ⟨first, hfirst⟩ := split_after_unbroken hstart (by simp [unknownTablePrefix])
    ((", ".intercalate e.registered).toList ++ if last then [] else ['\n'])
  have hline : ExcusableLine (unknownTablePrefix.toList ++ head ++ first) := by
    refine Or.inr (decide_eq_true ?_)
    rw [List.append_assoc]
    exact List.prefix_append _ _
  unfold Report.lines
  rw [htext, List.append_assoc, hfirst, List.forall_mem_cons]
  exact and_iff_right hline

theorem other_lines {message : String} {labels : List Label} {vrlCode : String}
    (hdoc : (Report.other message labels).AsDocumented vrlCode) (last : Bool) :
    ¬∀ line ∈ (Report.other message labels).lines vrlCode last, ExcusableLine line := by
  obtain ⟨hne, hother, hu, hreal⟩ := hdoc
  have hne' : message.toList ≠ [] := by
    intro h
    exact hne (String.toList_eq_nil_iff.mp h)
  unfold Report.lines
  rw [Report.diagnostic, diagnostic_text_other hother, single_line hu hne',
    List.forall_mem_singleton]
  exact hreal

/-- The lines a diagnostic takes up are all excuses exactly when it is excusable
itself and so is all that registered names break off it. -/
theorem report_lines {vrlCode : String} {r : Report} (hdoc : r.AsDocumented vrlCode)
    (last : Bool) :
    (∀ line ∈ r.lines vrlCode last, ExcusableLine line) ↔
      r.Excusable vrlCode ∧
        ∀ e, r = .unknownTable e → ∀ line ∈ furtherLines e last, ExcusableLine line := by
  cases r with
  | undefinedFunction labels => simp [undefined_lines hdoc]
  | unknownTable e =>
    rw [unknown_table_lines]
    simp [Report.Excusable]
  | other message labels =>
    apply iff_of_false (other_lines hdoc last)
    intro h
    exact h.1

theorem diagnostic_text_ne {vrlCode : String} {r : Report} (hdoc : r.AsDocumented vrlCode) :
    diagnosticText r.diagnostic vrlCode ≠ "" := by
  cases r with
  | undefinedFunction labels =>
    rw [Report.diagnostic, diagnostic_text_undefined]
    cases calledName labels vrlCode with
    | some name => simp [toString]
    | none => decide
  | unknownTable e =>
    obtain ⟨head, _, htext⟩ := unknown_text e vrlCode
    intro hempty
    rw [hempty, List.append_assoc] at htext
    simp [unknownTablePrefix] at htext
  | other message labels =>
    rw [Report.diagnostic, diagnostic_text_other hdoc.2.1]
    exact hdoc.1

/-- The lines of a whole error text are all excuses exactly when every diagnostic is
excusable and no registered name breaks off a line that is not. -/
theorem error_lines {vrlCode : String} {reports : List Report} (hne : reports ≠ [])
    (hdoc : ∀ r ∈ reports, r.AsDocumented vrlCode) :
    (∀ line ∈ splitLines (compileErrors (reports.map (·.diagnostic)) vrlCode).toList,
        ExcusableLine line) ↔
      (∀ r ∈ reports, r.Excusable vrlCode) ∧ NamesHarmless reports := by
  induction reports with
  | nil => exact absurd rfl hne
  | cons r reports ih =>
    have hr := hdoc r List.mem_cons_self
    rw [names_harmless_cons, List.forall_mem_cons]
    cases reports with
    | nil =>
      have hnone : NamesHarmless [] := by
        intro before e after heq
        cases before <;> cases heq
      have hlast := report_lines hr true
      rw [Report.lines, if_pos rfl, List.append_nil] at hlast
      simp only [compileErrors, List.map_cons, List.map_nil, String.intercalate_singleton]
      rw [hlast]
      simp [hnone]
    | cons r' reports =>
      have hrest := ih (by simp) fun x hx => hdoc x (List.mem_cons_of_mem r hx)
      have hjoin : (compileErrors ((r :: r' :: reports).map (·.diagnostic)) vrlCode).toList =
          (diagnosticText r.diagnostic vrlCode).toList ++
            '\n' :: (compileErrors ((r' :: reports).map (·.diagnostic)) vrlCode).toList := by
        simp only [compileErrors, List.map_cons, String.intercalate_cons_cons,
          String.toList_append]
        rw [List.append_assoc]
        rfl
      have hmore := report_lines hr false
      rw [Report.lines, if_neg (by simp)] at hmore
      rw [hjoin]
      unfold splitLines at hmore
      unfold splitLines at hrest ⊢
      rw [split_from_join, List.forall_mem_append, hmore, hrest]
      rw [List.isEmpty_cons]
      exact and_and_and_comm

theorem error_text_ne {vrlCode : String} {reports : List Report} (hne : reports ≠ [])
    (hdoc : ∀ r ∈ reports, r.AsDocumented vrlCode) :
    compileErrors (reports.map (·.diagnostic)) vrlCode ≠ "" := by
  cases reports with
  | nil => exact absurd rfl hne
  | cons r reports =>
    have hfirst := diagnostic_text_ne (hdoc r List.mem_cons_self)
    cases reports with
    | nil => simpa [compileErrors] using hfirst
    | cons r' reports => simp [compileErrors, String.intercalate_cons_cons]

/-- The classifier decodes a compiler's error text rightly exactly when one of the
diagnostics is a real error, or no registered name breaks off a line of its message
that reads like one. -/
theorem verdict_exact_iff {compile : Compiler} {vrlCode : String} {reports : List Report}
    (hdepth : checkNestingDepth vrlCode = .ok ())
    (hcompile : compile vrlCode = .error (reports.map (·.diagnostic))) (hne : reports ≠ [])
    (hdoc : ∀ r ∈ reports, r.AsDocumented vrlCode) :
    ∃ text, compileVrlProgram compile vrlCode = .error text ∧
      (((uncompilableReason vrlCode (some text)).isSome = true ↔
          ∀ r ∈ reports, r.Excusable vrlCode) ↔
        (∃ r ∈ reports, ¬r.Excusable vrlCode) ∨ NamesHarmless reports) ∧
      ∀ name, (checkTransform name vrlCode (.error text)).ok =
        (uncompilableReason vrlCode (some text)).isSome := by
  refine ⟨compileErrors (reports.map (·.diagnostic)) vrlCode, ?_, ?_, fun _ => rfl⟩
  · rw [compileVrlProgram, hdepth, hcompile]
    rfl
  · have htext := error_text_ne hne hdoc
    have hreason : (uncompilableReason vrlCode
        (some (compileErrors (reports.map (·.diagnostic)) vrlCode))).isSome = true ↔
          (∀ r ∈ reports, r.Excusable vrlCode) ∧ NamesHarmless reports := by
      rw [reason_some_iff, error_lines hne hdoc]
      exact and_iff_right htext
    rw [hreason, and_iff_left_iff_imp]
    by_cases hall : ∀ r ∈ reports, r.Excusable vrlCode
    · have hreal : ¬∃ r ∈ reports, ¬r.Excusable vrlCode := by
        intro hsome
        obtain ⟨r, hr, hnot⟩ := hsome
        exact hnot (hall r hr)
      rw [or_iff_right hreal]
      exact ⟨fun h => h hall, fun h _ => h⟩
    · have hreal : ∃ r ∈ reports, ¬r.Excusable vrlCode := by
        simpa only [not_forall, exists_prop] using hall
      exact iff_of_true (fun h => absurd h hall) (Or.inl hreal)

end

section
local instance : Libraries := asciiLibraries

def lookupUsers : String :=
  "hostname = get_hostname()\nfind_enrichment_table_records!(\"users\", \x7b\"name\": \"bob\"\x7d)"

theorem lookup_users_depth : checkNestingDepth lookupUsers = .ok () :=
  (check_accepts_iff _).mpr (by decide +kernel)

/-- A function left out, and a table nobody registered under that name. -/
def lookupReports : List Report :=
  [.undefinedFunction [⟨true, ⟨11, 23⟩⟩], .unknownTable ⟨"users", ["people"]⟩]

theorem lookup_users_verdict :
    ∃ text, compileVrlProgram (fun _ => .error (lookupReports.map (·.diagnostic))) lookupUsers =
        .error text ∧
      (((uncompilableReason lookupUsers (some text)).isSome = true ↔
          ∀ r ∈ lookupReports, r.Excusable lookupUsers) ↔
        (∃ r ∈ lookupReports, ¬r.Excusable lookupUsers) ∨ NamesHarmless lookupReports) ∧
      ∀ name, (checkTransform name lookupUsers (.error text)).ok =
        (uncompilableReason lookupUsers (some text)).isSome := by
  apply verdict_exact_iff lookup_users_depth rfl (by simp [lookupReports])
  intro r hr
  simp only [lookupReports, List.mem_cons, List.not_mem_nil, or_false] at hr
  rcases hr with rfl | rfl
  · have hname : calledName [⟨true, ⟨11, 23⟩⟩] lookupUsers = some "get_hostname" := by
      decide +kernel
    intro name h
    rw [hname, Option.some.injEq] at h
    subst h
    decide
  · trivial

/-- A table registered under a name with a newline in it: the source's only error is
an unregistered table, and no reason is given for leaving it unchecked. -/
theorem newline_name_no_reason :
    let registered := (World.start : World Unit).registerTable usersDisk "a\nb" "file"
      "users.csv" 44
    let unknown : UnknownTable := ⟨"users", ["a\nb"]⟩
    registered.1 = .ok () ∧
      (registered.2.compileArgs findBob).1 = .error (.unknownTable unknown) ∧
      ∃ text,
        compileVrlProgram (fun _ => .error [(Report.unknownTable unknown).diagnostic])
            lookupUsers = .error text ∧
          (∀ r ∈ [Report.unknownTable unknown],
            r.AsDocumented lookupUsers ∧ r.Excusable lookupUsers) ∧
          uncompilableReason lookupUsers (some text) = none := by
  refine ⟨rfl, rfl, compileErrors [(Report.unknownTable ⟨"users", ["a\nb"]⟩).diagnostic]
    lookupUsers, ?_, ?_, ?_⟩
  · rw [compileVrlProgram, lookup_users_depth]
    rfl
  · intro r hr
    rw [List.mem_singleton.mp hr]
    exact ⟨trivial, trivial⟩
  · decide +kernel

end

end VectorVrl.Proofs.ConfigCheck
