import Mathlib.Tactic.Linarith
import VectorVrl.Monitoring
import VectorVrl.Proofs.Newlines

namespace VectorVrl.Proofs.Monitoring
open Lib.InOrder Newlines

section
variable {grown grown' : Prop} {lines lines' : List (List Char)} {s t u : MonitorState}

theorem kept_refl (grown : Prop) (lines : List (List Char)) (s : MonitorState) :
    Kept grown lines s s :=
  ⟨le_refl _, fun _ => rfl, fun _ => rfl, fun _ => rfl, fun _ h _ => ⟨h, rfl⟩⟩

theorem kept_mono (hgrown : grown → grown') (hlines : lines ⊆ lines') (h : Kept grown lines s t) :
    Kept grown' lines' s t where
  ticks := h.ticks
  size hnot := h.size fun hg => hnot (hgrown hg)
  activity hnot := h.activity fun hg => hnot (hgrown hg)
  meaningful hall := h.meaningful fun line hline => hall line (hlines hline)
  phase phase hphase hall := h.phase phase hphase fun line hline => hall line (hlines hline)

theorem kept_trans (h : Kept grown lines s t) (h' : Kept grown lines t u) :
    Kept grown lines s u where
  ticks := le_trans h.ticks h'.ticks
  size hnot := (h'.size hnot).trans (h.size hnot)
  activity hnot := (h'.activity hnot).trans (h.activity hnot)
  meaningful hall := (h'.meaningful hall).trans (h.meaningful hall)
  phase phase hphase hall := by
    obtain ⟨hmid, hstart⟩ := h.phase phase hphase hall
    obtain ⟨hlast, hstart'⟩ := h'.phase phase hmid hall
    exact ⟨hlast, hstart'.trans hstart⟩

end

section
variable {clock : Nat → ℚ} {stallTimeout : ℚ} {s t : MonitorState} {line : List Char}

theorem enter_phase_kept (line : List Char) (s : MonitorState) (phase : BuildPhase) :
    Kept False [line] s (enterPhase clock line s phase) ∧
      (enterPhase clock line s phase).errorIndicators = s.errorIndicators := by
  rw [enterPhase]
  split
  · rename_i henter
    rw [Bool.and_eq_true, decide_eq_true_eq] at henter
    have hticks := Nat.le_add_right s.ticks (if s.currentPhase.isSome then 1 else 0)
    refine ⟨⟨Nat.le_succ_of_le hticks, fun _ => rfl, fun _ => rfl, fun _ => rfl, ?_⟩, rfl⟩
    intro current hcurrent hall
    obtain rfl : phase = current := hall line (List.mem_singleton_self _) phase henter.1
    exact absurd hcurrent henter.2
  · exact ⟨kept_refl _ _ _, rfl⟩

theorem enter_phases_kept (s : MonitorState) (line : List Char) :
    Kept False [line] s (enterPhases clock s line) ∧
      (enterPhases clock s line).errorIndicators = s.errorIndicators := by
  have hfold : ∀ (phases : List BuildPhase) (s : MonitorState),
      Kept False [line] s (phases.foldl (enterPhase clock line) s) ∧
        (phases.foldl (enterPhase clock line) s).errorIndicators = s.errorIndicators := by
    intro phases
    induction phases with
    | nil => exact fun s => ⟨kept_refl _ _ _, rfl⟩
    | cons phase rest ih =>
      intro s
      obtain ⟨hkept, herrors⟩ := @enter_phase_kept clock line s phase
      obtain ⟨hrest, herrors'⟩ := ih (enterPhase clock line s phase)
      exact ⟨kept_trans hkept hrest, herrors'.trans herrors⟩
  exact hfold BuildPhase.all s

theorem note_progress_kept (s : MonitorState) (line : List Char) :
    Kept False [line] s (noteProgress clock s line) ∧
      (noteProgress clock s line).errorIndicators = s.errorIndicators := by
  rw [noteProgress]
  split
  · rename_i hmeaningful
    refine ⟨⟨Nat.le_succ _, fun _ => rfl, fun _ => rfl, ?_, fun _ h _ => ⟨h, rfl⟩⟩, rfl⟩
    intro hall
    have hnot := hall line (List.mem_singleton_self _)
    rw [hmeaningful] at hnot
    cases hnot
  · exact ⟨kept_refl _ _ _, rfl⟩

/-- Only the indicators change over the patterns, and each has a pattern that its line meets. -/
theorem check_patterns_kept (line : List Char) (patterns : List LogPattern) (s : MonitorState) :
    Kept False [line] s (checkPatterns line patterns s).1 := by
  induction patterns generalizing s with
  | nil => exact kept_refl _ _ _
  | cons pattern rest ih =>
    have hnote : Kept False [line] s
        { s with errorIndicators := s.errorIndicators ++ [line.take 100] } :=
      ⟨le_refl _, fun _ => rfl, fun _ => rfl, fun _ => rfl, fun _ h _ => ⟨h, rfl⟩⟩
    rw [checkPatterns]
    split
    · split
      · exact hnote
      · exact kept_trans hnote (ih _)
    · exact ih s

theorem check_patterns_errors (line : List Char) (patterns : List LogPattern) (s : MonitorState) :
    ((checkPatterns line patterns s).1.errorIndicators = s.errorIndicators ∧
        (checkPatterns line patterns s).2 = false) ∨
      ∃ pattern ∈ patterns, pattern.onLine line = true := by
  induction patterns generalizing s with
  | nil => exact Or.inl ⟨rfl, rfl⟩
  | cons pattern rest ih =>
    by_cases hline : pattern.onLine line = true
    · exact Or.inr ⟨pattern, List.mem_cons_self, hline⟩
    · rw [checkPatterns, if_neg hline]
      rcases ih s with h | ⟨other, hmem, hother⟩
      · exact Or.inl h
      · exact Or.inr ⟨other, List.mem_cons_of_mem _ hmem, hother⟩

theorem watch_line_kept (s : MonitorState) (line : List Char) :
    Kept False [line] s (watchLine clock s line).1 :=
  kept_trans (note_progress_kept s line).1
    (kept_trans (enter_phases_kept _ line).1 (check_patterns_kept line _ _))

theorem watch_lines_kept (lines : List (List Char)) (s : MonitorState) :
    Kept False (lines.map strip) s (watchLines clock lines s).1 := by
  induction lines generalizing s with
  | nil => exact kept_refl _ _ _
  | cons line rest ih =>
    have hrest : ∀ s, Kept False ((line :: rest).map strip) s (watchLines clock rest s).1 :=
      fun s => kept_mono id (List.subset_cons_self _ _) (ih s)
    rw [watchLines]
    split
    · exact hrest s
    · have hline : Kept False ((line :: rest).map strip) s (watchLine clock s (strip line)).1 :=
        kept_mono id (by simp) (watch_line_kept s (strip line))
      split
      · rename_i s' heq
        rw [heq] at hline
        exact hline
      · rename_i s' heq
        rw [heq] at hline
        exact kept_trans hline (hrest s')

theorem timeouts_kept (grown : Prop) (lines : List (List Char)) (s : MonitorState) :
    Kept grown lines s (checkTimeouts clock stallTimeout s).1 :=
  ⟨Nat.le_add_right _ _, fun _ => rfl, fun _ => rfl, fun _ => rfl, fun _ h _ => ⟨h, rfl⟩⟩

theorem check_patterns_stop {line : List Char} {patterns : List LogPattern}
    (h : (checkPatterns line patterns s).2 = true) :
    ∃ pattern ∈ patterns, pattern.fatal = true ∧ pattern.onLine line = true := by
  induction patterns generalizing s with
  | nil => cases h
  | cons pattern rest ih =>
    have hrest : ∀ s, (checkPatterns line rest s).2 = true →
        ∃ pattern' ∈ pattern :: rest, pattern'.fatal = true ∧ pattern'.onLine line = true := by
      intro s h
      obtain ⟨other, hmem, hother⟩ := ih h
      exact ⟨other, List.mem_cons_of_mem _ hmem, hother⟩
    rw [checkPatterns] at h
    split at h
    · rename_i hline
      split at h
      · rename_i hfatal
        exact ⟨pattern, List.mem_cons_self, hfatal, hline⟩
      · exact hrest _ h
    · exact hrest _ h

/-- A line that ends the build meets a fatal pattern. -/
theorem watch_lines_stop {lines : List (List Char)} {stop : Stop}
    (h : (watchLines clock lines s).2 = some stop) :
    ∃ line ∈ lines.map strip, stop = .fatal line ∧
      ∃ pattern ∈ upstreamPatterns, pattern.fatal = true ∧ pattern.onLine line = true := by
  induction lines generalizing s with
  | nil => cases h
  | cons line rest ih =>
    have hrest : ∀ s, (watchLines clock rest s).2 = some stop →
        ∃ line' ∈ (line :: rest).map strip, stop = .fatal line' ∧
          ∃ pattern ∈ upstreamPatterns, pattern.fatal = true ∧ pattern.onLine line' = true := by
      intro s h
      obtain ⟨other, hmem, hother⟩ := ih h
      exact ⟨other, List.mem_cons_of_mem _ hmem, hother⟩
    rw [watchLines] at h
    split at h
    · exact hrest s h
    · split at h
      · rename_i s' heq
        refine ⟨strip line, List.mem_cons_self, (Option.some.inj h).symm, ?_⟩
        exact check_patterns_stop (by rw [watchLine] at heq; rw [heq])
      · exact hrest _ h

/-- What a poll does: it leaves out the timeouts, a line in it ends the build, or it comes
to the timeouts in a state that its lines have led to. -/
theorem poll_cases (s : MonitorState) (view : LogView) :
    ∃ t, Kept (view.Grown s.lastSize) (newLines s view) s t ∧
      ((poll clock stallTimeout s view = (t, none) ∧ ¬view.Checked s.lastSize) ∨
        (∃ line, poll clock stallTimeout s view = (t, some (.fatal line)) ∧
          ∃ pattern ∈ upstreamPatterns, pattern.fatal = true ∧ pattern.onLine line = true) ∨
        poll clock stallTimeout s view = checkTimeouts clock stallTimeout t) := by
  cases view with
  | missing => exact ⟨s, kept_refl _ _ _, Or.inl ⟨rfl, id⟩⟩
  | unreadable => exact ⟨s, kept_refl _ _ _, Or.inl ⟨rfl, id⟩⟩
  | sized size text =>
    by_cases hgrown : size > s.lastSize
    · have hseen : ∀ lines n, Kept (LogView.Grown s.lastSize (.sized size text)) lines s
          { noteActivity clock s with lastSize := n } := fun lines n =>
        ⟨Nat.le_succ _, (absurd hgrown ·), (absurd hgrown ·), fun _ => rfl, fun _ h _ => ⟨h, rfl⟩⟩
      cases text with
      | none =>
        refine ⟨_, hseen _ s.lastSize, Or.inl ⟨by rw [poll, if_pos hgrown]; rfl, ?_⟩⟩
        exact fun hchecked => hchecked hgrown rfl
      | some text =>
        have hnew : newLines s (.sized size (some text)) =
            (unreadLines s text).map strip := if_pos hgrown
        have hlines := @watch_lines_kept clock (unreadLines s text)
          { noteActivity clock s with lastSize := size }
        have hkept := kept_trans (hseen _ size) (kept_mono False.elim (List.Subset.refl _) hlines)
        rw [hnew]
        refine ⟨_, hkept, Or.inr ?_⟩
        simp only [poll, if_pos hgrown]
        cases hwatch : watchLines clock (unreadLines s text)
            { noteActivity clock s with lastSize := size } with
        | mk t stop =>
          cases stop with
          | none => exact Or.inr rfl
          | some stop =>
            obtain ⟨line, _, rfl, hfatal⟩ := watch_lines_stop (congrArg Prod.snd hwatch)
            exact Or.inl ⟨line, rfl, hfatal⟩
    · refine ⟨s, kept_refl _ _ _, Or.inr (Or.inr ?_)⟩
      simp only [poll, if_neg hgrown]

theorem poll_kept (s : MonitorState) (view : LogView) :
    Kept (view.Grown s.lastSize) (newLines s view) s (poll clock stallTimeout s view).1 := by
  obtain ⟨t, hkept, ⟨hpoll, _⟩ | ⟨line, hpoll, _⟩ | hpoll⟩ := poll_cases s view
  · rw [hpoll]
    exact hkept
  · rw [hpoll]
    exact hkept
  · rw [hpoll]
    exact kept_trans hkept (timeouts_kept _ _ t)

/-- What one poll keeps and the rest of a run keeps, the run keeps. -/
theorem kept_cons {u : MonitorState} {view : LogView} {rest : List LogView}
    {lines lines' : List (List Char)} (hview : Kept (view.Grown s.lastSize) lines s t)
    (hrest : Kept (∃ view' ∈ rest, view'.Grown t.lastSize) lines' t u) :
    Kept (∃ view' ∈ view :: rest, view'.Grown s.lastSize) (lines ++ lines') s u := by
  have hsize : (∃ view' ∈ rest, view'.Grown t.lastSize) →
      ∃ view' ∈ view :: rest, view'.Grown s.lastSize := by
    intro hgrown
    by_cases hfirst : view.Grown s.lastSize
    · exact ⟨view, List.mem_cons_self, hfirst⟩
    · obtain ⟨other, hmem, hother⟩ := hgrown
      rw [hview.size hfirst] at hother
      exact ⟨other, List.mem_cons_of_mem _ hmem, hother⟩
  apply kept_trans (kept_mono _ (List.subset_append_left _ _) hview)
    (kept_mono hsize (List.subset_append_right _ _) hrest)
  exact fun hgrown => ⟨view, List.mem_cons_self, hgrown⟩

theorem timeouts_pass (h : timeout clock stallTimeout s = none) :
    clock s.ticks - s.lastActivity ≤ stallTimeout ∧
      clock (s.ticks + 1) - s.lastMeaningful ≤ 900 ∧
      ∀ phase, s.currentPhase = some phase →
        clock (s.ticks + 2) - s.phaseStart ≤ phase.maxDuration := by
  rw [timeout] at h
  split at h
  · cases h
  · rename_i hphase
    split at h
    · cases h
    · rename_i hmeaningful
      split at h
      · cases h
      · rename_i hactivity
        refine ⟨not_lt.mp hactivity, not_lt.mp hmeaningful, ?_⟩
        intro phase hcurrent
        rw [hcurrent, Option.any_some, decide_eq_true_eq] at hphase
        exact not_lt.mp hphase

/-- A run that goes on past a poll of the timeouts has come to them from its start. -/
theorem watch_timeouts {after : List LogView} {last : LogView}
    (hchecked : last.Checked (watch clock stallTimeout s after).1.lastSize)
    (h : (watch clock stallTimeout s (after ++ [last])).2 = none) :
    ∃ t, (watch clock stallTimeout s after).1.ticks ≤ t.ticks ∧
      Kept (∃ view ∈ after ++ [last], view.Grown s.lastSize)
        (shownLines clock stallTimeout s (after ++ [last])) s t ∧
      timeout clock stallTimeout t = none := by
  induction after generalizing s with
  | nil =>
    rw [List.nil_append, watch] at h
    obtain ⟨t, hkept, ⟨_, hnot⟩ | ⟨line, hpoll, _⟩ | hpoll⟩ := poll_cases s last
    · exact absurd hchecked hnot
    · rw [hpoll] at h
      cases h
    · have hone := kept_cons hkept (kept_refl (∃ view ∈ ([] : List LogView), view.Grown t.lastSize) [] t)
      rw [hpoll] at h
      refine ⟨t, hkept.ticks, hone, ?_⟩
      split at h
      · cases h
      · rename_i heq
        exact congrArg Prod.snd heq
  | cons view rest ih =>
    have hview := @poll_kept clock stallTimeout s view
    rw [watch] at hchecked ⊢
    rw [List.cons_append, watch] at h
    rw [List.cons_append, shownLines]
    split at h
    · cases h
    · rename_i t heq
      rw [heq] at hview hchecked ⊢
      obtain ⟨u, hticks, hrest, hpass⟩ := ih hchecked h
      exact ⟨u, hticks, kept_cons hview hrest, hpass⟩

/-- A build that hangs is stopped at the first poll that looks at the timeouts too late. -/
theorem hung_build_stopped (hclock : Monotone clock) {after : List LogView} {last : LogView}
    (hchecked : last.Checked (watch clock stallTimeout s after).1.lastSize)
    (hhung : Hung clock stallTimeout s after last) :
    ∃ stop, (watch clock stallTimeout s (after ++ [last])).2 = some stop := by
  cases hwatch : (watch clock stallTimeout s (after ++ [last])).2 with
  | some stop => exact ⟨stop, rfl⟩
  | none =>
    obtain ⟨t, hticks, hkept, hpass⟩ := watch_timeouts hchecked hwatch
    obtain ⟨hactivity, hmeaningful, hphase⟩ := timeouts_pass hpass
    have hlate : ∀ n, clock (watch clock stallTimeout s after).1.ticks ≤ clock (t.ticks + n) :=
      fun n => hclock (le_trans hticks (Nat.le_add_right _ _))
    have h0 := hlate 0
    have h1 := hlate 1
    have h2 := hlate 2
    rw [Nat.add_zero] at h0
    cases hhung with
    | stalled hquiet hlong =>
      have hsame := hkept.activity fun hgrown => by
        obtain ⟨view, hmem, hgrown⟩ := hgrown
        exact hquiet view hmem hgrown
      rw [hsame] at hactivity
      linarith
    | noProgress hquiet hlong =>
      rw [hkept.meaningful hquiet] at hmeaningful
      linarith
    | phase phase hcurrent hquiet hlong =>
      obtain ⟨hstill, hstart⟩ := hkept.phase phase hcurrent hquiet
      have hlimit := hphase phase hstill
      rw [hstart] at hlimit
      linarith

theorem timeouts_cause {stop : Stop} (h : timeout clock stallTimeout s = some stop) :
    Stop.Cause clock stallTimeout (checkTimeouts clock stallTimeout s).1 stop := by
  have hticks : s.ticks + 1 < s.ticks + if s.currentPhase.isSome then 3 else 2 := by
    split <;> omega
  rw [timeout] at h
  split at h
  · rename_i hphase
    cases h
    cases hcurrent : s.currentPhase with
    | none =>
      rw [hcurrent] at hphase
      cases hphase
    | some phase =>
      rw [hcurrent, Option.any_some, decide_eq_true_eq] at hphase
      refine ⟨phase, hcurrent, s.ticks + 2, ?_, hphase⟩
      rw [checkTimeouts, hcurrent]
      exact Nat.lt_succ_self _
  · split at h
    · rename_i hmeaningful
      cases h
      exact ⟨s.ticks + 1, hticks, hmeaningful⟩
    · split at h
      · rename_i hactivity
        cases h
        exact ⟨s.ticks, Nat.lt_of_succ_lt hticks, hactivity⟩
      · cases h

/-- Whatever stops a build has its cause. -/
theorem stopped_for_cause {views : List LogView} {stop : Stop}
    (h : (watch clock stallTimeout s views).2 = some stop) :
    Stop.Cause clock stallTimeout (watch clock stallTimeout s views).1 stop := by
  induction views generalizing s with
  | nil => cases h
  | cons view rest ih =>
    rw [watch] at h ⊢
    split at h
    · rename_i t stop' heq
      obtain rfl : stop' = stop := Option.some.inj h
      obtain ⟨u, _, ⟨hpoll, _⟩ | ⟨line, hpoll, hfatal⟩ | hpoll⟩ := poll_cases s view
      · rw [hpoll] at heq
        cases heq
      · rw [hpoll] at heq
        cases heq
        exact hfatal
      · rw [hpoll] at heq
        have hcause := timeouts_cause (congrArg Prod.snd heq)
        rw [heq] at hcause
        exact hcause
    · exact ih h

/-- Wherever a monitor has got to, it goes on to end the builds that hang, and ends none
without a cause. -/
theorem watchdog (hclock : Monotone clock) (stallTimeout : ℚ) (s : MonitorState) :
    Watchdog clock stallTimeout s where
  ends _ _ hchecked hhung := hung_build_stopped hclock hchecked hhung
  cause _ _ h := stopped_for_cause h

theorem even_clock_watchdog :
    Watchdog (fun tick => (tick : ℚ)) 600 (MonitorState.start fun tick => (tick : ℚ)) :=
  watchdog Nat.mono_cast 600 _

theorem watch_line_errors (s : MonitorState) (line : List Char) :
    ((watchLine clock s line).1.errorIndicators = s.errorIndicators ∧
        (watchLine clock s line).2 = false) ∨
      ∃ pattern ∈ upstreamPatterns, pattern.onLine line = true := by
  rcases check_patterns_errors line upstreamPatterns
      (enterPhases clock (noteProgress clock s line) line) with ⟨herrors, hstop⟩ | hpattern
  · refine Or.inl ⟨herrors.trans ?_, hstop⟩
    exact (enter_phases_kept _ line).2.trans (note_progress_kept s line).2
  · exact Or.inr hpattern

/-- Lines that raise no alarm leave the indicators as they were. -/
theorem watch_lines_errors (lines : List (List Char)) (s : MonitorState) :
    ((watchLines clock lines s).1.errorIndicators = s.errorIndicators ∧
        ∀ line, (watchLines clock lines s).2 ≠ some (.fatal line)) ∨
      ∃ line ∈ lines.map strip, ∃ pattern ∈ upstreamPatterns, pattern.onLine line = true := by
  induction lines generalizing s with
  | nil => exact Or.inl ⟨rfl, fun _ h => nomatch h⟩
  | cons line rest ih =>
    have hmore : (∃ line ∈ rest.map strip, ∃ pattern ∈ upstreamPatterns,
        pattern.onLine line = true) → ∃ line' ∈ (line :: rest).map strip,
          ∃ pattern ∈ upstreamPatterns, pattern.onLine line' = true := by
      intro h
      obtain ⟨other, hmem, hother⟩ := h
      exact ⟨other, List.mem_cons_of_mem _ hmem, hother⟩
    rw [watchLines]
    split
    · exact (ih s).imp_right hmore
    · rcases @watch_line_errors clock s (strip line) with ⟨herrors, hstop⟩ | hpattern
      · split
        · rename_i t heq
          rw [heq] at hstop
          cases hstop
        · rename_i t heq
          rw [heq] at herrors
          rcases ih t with ⟨hsame, hnot⟩ | h
          · exact Or.inl ⟨hsame.trans herrors, hnot⟩
          · exact Or.inr (hmore h)
      · exact Or.inr ⟨strip line, List.mem_cons_self, hpattern⟩

theorem timeout_not_fatal (s : MonitorState) (line : List Char) :
    timeout clock stallTimeout s ≠ some (.fatal line) := by
  rw [timeout]
  split
  · exact fun h => nomatch h
  · split
    · exact fun h => nomatch h
    · split <;> exact fun h => nomatch h

theorem strip_piece (text : List Char) : strip text <:+: text := by
  have hfront : (text.dropWhile pyIsSpace) <:+ text := List.dropWhile_suffix _
  have hback : strip text <+: text.dropWhile pyIsSpace := by
    rw [strip, ← List.reverse_suffix, List.reverse_reverse]
    exact List.dropWhile_suffix _
  exact hback.isInfix.trans hfront.isInfix

/-- A pattern that a line of a view meets is met by the log. -/
theorem shown_on_text {log text : List Char} (hwithin : text <+: log) (s : MonitorState)
    {line : List Char} (hline : line ∈ (unreadLines s text).map strip)
    {pattern : LogPattern} (h : pattern.onLine line = true) :
    pattern.onText (universalNewlines log) = true := by
  obtain ⟨piece, hpiece, rfl⟩ := List.mem_map.mp hline
  obtain ⟨hbreak, hread⟩ := split_part _ hpiece
  obtain ⟨hunread, hreturn⟩ := newlines_piece hbreak hread
  have hlog : piece <:+: log :=
    hunread.trans ((List.drop_suffix s.lastSize text).isInfix.trans hwithin.isInfix)
  obtain ⟨whole, hwhole, hpart⟩ := infix_split hbreak (newlines_keep_piece hreturn hlog)
  rw [LogPattern.onText, List.any_eq_true]
  refine ⟨whole, hwhole, in_order_infix (List.IsInfix.map _ ?_) h⟩
  exact (strip_piece piece).trans hpart

/-- A poll that raises an alarm does so for a pattern that the log meets. -/
theorem poll_errors {log : List Char} {view : LogView} (hwithin : view.Within log)
    (s : MonitorState) :
    ((poll clock stallTimeout s view).1.errorIndicators = s.errorIndicators ∧
        ∀ line, (poll clock stallTimeout s view).2 ≠ some (.fatal line)) ∨
      ∃ pattern ∈ upstreamPatterns, pattern.onText (universalNewlines log) = true := by
  cases view with
  | missing => exact Or.inl ⟨rfl, fun _ h => nomatch h⟩
  | unreadable => exact Or.inl ⟨rfl, fun _ h => nomatch h⟩
  | sized size text =>
    rw [poll.eq_def]
    simp only
    split
    · cases text with
      | none => exact Or.inl ⟨rfl, fun _ h => nomatch h⟩
      | some text =>
        rcases @watch_lines_errors clock (unreadLines s text)
            { noteActivity clock s with lastSize := size } with
          ⟨herrors, hstop⟩ | ⟨line, hline, pattern, hmem, hpattern⟩
        · refine Or.inl ?_
          simp only
          split
          · rename_i t stop heq
            rw [heq] at herrors hstop
            exact ⟨herrors, hstop⟩
          · rename_i t heq
            rw [heq] at herrors
            exact ⟨herrors, timeout_not_fatal t⟩
        · exact Or.inr ⟨pattern, hmem, shown_on_text hwithin s hline hpattern⟩
    · exact Or.inl ⟨rfl, timeout_not_fatal s⟩

/-- A monitor that is alarmed has read a failure that the analysis of the log finds. -/
theorem alarmed_shows {log : List Char} {views : List LogView}
    (hwithin : ∀ view ∈ views, view.Within log) (hstart : s.errorIndicators = [])
    (h : Alarmed (watch clock stallTimeout s views)) :
    ∃ pattern ∈ upstreamPatterns, pattern.onText (universalNewlines log) = true := by
  induction views generalizing s with
  | nil =>
    rcases h with h | ⟨line, h⟩
    · exact absurd hstart h
    · cases h
  | cons view rest ih =>
    rw [List.forall_mem_cons] at hwithin
    rcases @poll_errors clock stallTimeout _ _ hwithin.1 s with
      ⟨herrors, hstop⟩ | hpattern
    · rw [watch] at h
      split at h
      · rename_i t stop heq
        rw [heq] at herrors hstop
        rcases h with h | ⟨line, h⟩
        · exact absurd (herrors.trans hstart) h
        · exact absurd h (hstop line)
      · rename_i t heq
        rw [heq] at herrors
        exact ih hwithin.2 (herrors.trans hstart) h
    · exact hpattern

end

end VectorVrl.Proofs.Monitoring
