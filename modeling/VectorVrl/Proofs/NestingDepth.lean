import Mathlib.Data.List.Chain
import VectorVrl.Proofs.Scanner
import VectorVrl.TokenTree

namespace VectorVrl.Proofs.NestingDepth
open Nesting Scanner Lib.Depth

def tokenMark : Token → Mark
  | .opening _ => .opens
  | .closing _ => .closes
  | .leaf _ => .flat

def isPrefixWord (cs : List Char) : Bool := cs = ['r'] || cs = ['s'] || cs = ['t']

/-- The mode in which a token leaves the scan: only a word can still grow. -/
def modeAfter : Token → Mode
  | .leaf (.word run) => if isPrefixWord run.val then .literalPrefix else .word
  | _ => .boundary

theorem read_body {close : Char} (hc : close ≠ '\\') (g : Gauge) (body : Body close) :
    Scan.readAll ⟨.quoted close, g⟩ (bodyText body ++ [close]) = ⟨.boundary, g⟩ := by
  induction body with
  | nil => simp [bodyText, Scan.read, Mode.next, hc]
  | cons piece body ih =>
    rw [bodyText] at ih
    cases piece with
    | plain c ordinary =>
      simpa [bodyText, Piece.text, Scan.read, Mode.next, ordinary.1, ordinary.2] using ih
    | escape c => simpa [bodyText, Piece.text, Scan.read, Mode.next] using ih

theorem read_comment (g : Gauge) (cs : List Char) (h : '\n' ∉ cs) :
    Scan.readAll ⟨.comment, g⟩ (cs ++ ['\n']) = ⟨.boundary, g⟩ := by
  induction cs with
  | nil => simp [Scan.read, Mode.next]
  | cons c cs ih =>
    simp only [List.mem_cons, not_or] at h
    have hc : c ≠ '\n' := fun he => h.1 he.symm
    simpa [Scan.read, Mode.next, hc] using ih h.2

theorem read_word_rest (g : Gauge) (cs : List Char) (h : ∀ c ∈ cs, isIdentContinue c = true) :
    Scan.readAll ⟨.word, g⟩ cs = ⟨.word, g⟩ := by
  induction cs with
  | nil => rfl
  | cons c cs ih =>
    have hc := h c (by simp)
    simpa [Scan.read, Mode.next, hc] using ih (fun d hd => h d (by simp [hd]))

theorem enter_ident {c : Char} (h : isIdentContinue c = true) :
    enter c = (if isLiteralPrefix c then .literalPrefix else .word, .flat) := by
  obtain ⟨ho, hc, hq, hh, _⟩ := ident_not_bracket h
  by_cases hl : isLiteralPrefix c = true <;> simp [enter, ho, hc, hq, hh, hl, h]

theorem read_word (g : Gauge)
    (run : {cs : List Char // cs ≠ [] ∧ ∀ c ∈ cs, isIdentContinue c = true}) :
    Scan.readAll ⟨.boundary, g⟩ run.val = ⟨modeAfter (.leaf (.word run)), g⟩ := by
  obtain ⟨cs, hne, hall⟩ := run
  cases cs with
  | nil => exact absurd rfl hne
  | cons c cs =>
    have hc := hall c (by simp)
    cases cs with
    | nil =>
      have he : isPrefixWord [c] = isLiteralPrefix c := by
        simp [isPrefixWord, isLiteralPrefix]
      simp [Scan.read, Mode.next, enter_ident hc, modeAfter, he]
    | cons d cs =>
      have hd := hall d (by simp)
      obtain ⟨_, _, _, _, hquote⟩ := ident_not_bracket hd
      have hrest := read_word_rest g cs (fun e he => hall e (by simp [he]))
      by_cases hl : isLiteralPrefix c = true <;>
        simpa [Scan.read, Mode.next, enter_ident hc, hl, hd, hquote, modeAfter, isPrefixWord]
          using hrest

theorem read_other (g : Gauge) (c : Char) (h : isOther c = true) :
    Scan.read ⟨.boundary, g⟩ c = ⟨.boundary, g⟩ := by
  simp only [isOther, Bool.and_eq_true, Bool.not_eq_true', decide_eq_true_eq] at h
  obtain ⟨⟨⟨⟨ho, hc⟩, hq⟩, hh⟩, hi⟩ := h
  have hl : isLiteralPrefix c = false := by
    by_contra hl
    rw [prefix_ident (by simpa using hl)] at hi
    cases hi
  simp [Scan.read, Mode.next, enter, ho, hc, hq, hh, hl, hi]

/-- A token read from a boundary has its own mark and nothing else. -/
theorem read_token (g : Gauge) (t : Token) :
    Scan.readAll ⟨.boundary, g⟩ t.text = ⟨modeAfter t, g.mark (tokenMark t)⟩ := by
  match t with
  | .opening kind => cases kind <;> rfl
  | .closing kind => cases kind <;> rfl
  | .leaf (.string body) => exact read_body (by decide) g body
  | .leaf (.literal kind body) => cases kind <;> exact read_body (by decide) g body
  | .leaf (.comment text) => exact read_comment g text.val text.property
  | .leaf (.word run) => exact read_word g run
  | .leaf (.other c) => exact read_other g c.val c.property

/-- A character that cannot continue a word, nor turn a prefix letter into a
literal, is read as at a boundary. -/
theorem next_after_word (run : {cs : List Char // cs ≠ [] ∧ ∀ c ∈ cs, isIdentContinue c = true})
    {c : Char} (hi : isIdentContinue c = false) (hq : isPrefixWord run.val = true → c ≠ '\'') :
    (modeAfter (.leaf (.word run))).next c = Mode.boundary.next c := by
  simp only [modeAfter]
  split
  · rename_i hp
    simp [Mode.next, hi, hq hp]
  · simp [Mode.next, hi]

theorem token_text_ne_nil (t : Token) : t.text ≠ [] := by
  match t with
  | .opening _ | .closing _ | .leaf (.string _) | .leaf (.literal _ _)
  | .leaf (.comment _) | .leaf (.other _) => simp [Token.text, Leaf.text]
  | .leaf (.word run) => exact run.property.1

/-- What may follow `a` reads as it would from a boundary. -/
theorem first_after {a b : Token} (h : mayFollow a b = true) :
    ∃ c cs, b.text = c :: cs ∧ (modeAfter a).next c = Mode.boundary.next c := by
  match a, b with
  | .leaf (.word run), .opening kind =>
    refine ⟨kind.opener, [], rfl, next_after_word run ?_ (fun _ => ?_)⟩ <;> cases kind <;> decide
  | .leaf (.word run), .closing kind =>
    refine ⟨kind.closer, [], rfl, next_after_word run ?_ (fun _ => ?_)⟩ <;> cases kind <;> decide
  | .leaf (.word run), .leaf (.string _) =>
    exact ⟨'"', _, rfl, next_after_word run (by decide) (fun _ => by decide)⟩
  | .leaf (.word run), .leaf (.comment _) =>
    exact ⟨'#', _, rfl, next_after_word run (by decide) (fun _ => by decide)⟩
  | .leaf (.word run), .leaf (.other c) =>
    refine ⟨c.val, [], rfl, next_after_word run ?_ ?_⟩
    · have ho := c.property
      simp only [isOther, Bool.and_eq_true, Bool.not_eq_true'] at ho
      exact ho.2
    · intro hp hq
      simp only [isPrefixWord] at hp
      simp [mayFollow, hq, hp] at h
  | .opening _, b | .closing _, b | .leaf (.string _), b | .leaf (.literal _ _), b
  | .leaf (.comment _), b | .leaf (.other _), b =>
    obtain ⟨c, cs, he⟩ := List.exists_cons_of_ne_nil (token_text_ne_nil b)
    exact ⟨c, cs, he, rfl⟩

/-- Read after any token, separated tokens contribute exactly their marks. -/
theorem read_tokens_after (a : Token) (ts : List Token) (g : Gauge)
    (h : (a :: ts).IsChain (fun a b => mayFollow a b = true)) :
    (Scan.readAll ⟨modeAfter a, g⟩ (ts.flatMap Token.text)).gauge = g.run (ts.map tokenMark) := by
  induction ts generalizing a g with
  | nil => rfl
  | cons b ts ih =>
    obtain ⟨hab, hts⟩ := List.isChain_cons_cons.mp h
    obtain ⟨c, cs, htext, hnext⟩ := first_after hab
    have hread := read_token g b
    rw [htext] at hread
    rw [List.flatMap_cons, htext, List.cons_append, read_all_cons, Scan.read, hnext,
      read_all_append]
    rw [read_all_cons, Scan.read] at hread
    rw [hread]
    exact ih b _ hts

theorem read_tokens (ts : List Token) (g : Gauge)
    (h : ts.IsChain (fun a b => mayFollow a b = true)) :
    (Scan.readAll ⟨.boundary, g⟩ (ts.flatMap Token.text)).gauge = g.run (ts.map tokenMark) := by
  cases ts with
  | nil => rfl
  | cons b ts =>
    rw [List.flatMap_cons, read_all_append, read_token]
    exact read_tokens_after b ts _ h

mutual

theorem item_balanced : (item : Item) → Balanced (item.tokens.map tokenMark)
  | .leaf leaf => by simpa [Item.tokens, tokenMark] using Balanced.flat
  | .group kind items => by
    simpa [Item.tokens, tokenMark] using (items_balanced items).wrap

theorem items_balanced : (items : List Item) → Balanced ((itemTokens items).map tokenMark)
  | [] => by simpa [itemTokens] using Balanced.nil
  | item :: items => by
    simpa [itemTokens] using (item_balanced item).append (items_balanced items)

end

theorem count_opens (ts : List Token) :
    (ts.map tokenMark).count .opens = ts.countP Token.isOpening := by
  rw [List.count, List.countP_map]
  congr 1
  funext t
  cases t <;> rfl

theorem count_closes (ts : List Token) :
    (ts.map tokenMark).count .closes = ts.countP Token.isClosing := by
  rw [List.count, List.countP_map]
  congr 1
  funext t
  cases t <;> rfl

theorem peak_tokens (ts : List Token) : peak (ts.map tokenMark) = mostOpen ts := by
  have hl : level ∘ List.map tokenMark = openAfter := by
    funext ts
    simp only [Function.comp_apply, level, openAfter, count_opens, count_closes]
  rw [peak, mostOpen, List.map_inits, List.map_map, hl]

/-- The depth of separated tokens is read off their marks alone. -/
theorem depth_of_tokens (ts : List Token)
    (hs : ts.IsChain (fun a b => mayFollow a b = true)) (hm : Matched (ts.map tokenMark)) :
    maxBracketDepth (printTokens ts) = mostOpen ts := by
  rw [max_depth_scan, printTokens, String.toList_ofList, Scan.start, read_tokens ts _ hs,
    run_matched hm, peak_tokens]

mutual

theorem item_peak : (item : Item) → peak (item.tokens.map tokenMark) = item.depth
  | .leaf l => rfl
  | .group kind items => by
    have hw := peak_wrap (items_balanced items)
    rw [items_peak items] at hw
    simpa [Item.tokens, tokenMark, Item.depth] using hw

theorem items_peak : (items : List Item) →
    peak ((itemTokens items).map tokenMark) = itemDepth items
  | [] => rfl
  | item :: items => by
    rw [itemTokens, List.map_append, peak_append (item_balanced item), item_peak item,
      items_peak items, itemDepth]

end

/-- Uncut, a tree is as deep as its groups are nested. -/
theorem depth_of_tree (t : TokenTree) :
    maxBracketDepth (printTokens t.tokens) = itemDepth t.items := by
  rw [depth_of_tokens t.tokens t.separated (items_balanced t.items).matched, ← peak_tokens]
  exact items_peak t.items

/-- Cut anywhere between two tokens, a token tree is exactly as deep as the
number of its groups that are open together, and the guard checks that number. -/
theorem depth_at_cut (t : TokenTree) (n : Nat) :
    maxBracketDepth (printTokens (t.tokens.take n)) = mostOpen (t.tokens.take n) ∧
    (checkNestingDepth (printTokens (t.tokens.take n)) = .ok () ↔
      mostOpen (t.tokens.take n) ≤ maxVrlNestingDepth) := by
  have hpre : t.tokens.take n <+: t.tokens := List.take_prefix n t.tokens
  have hm : Matched ((t.tokens.take n).map tokenMark) :=
    (items_balanced t.items).matched.initial_part (hpre.map tokenMark)
  have hd := depth_of_tokens (t.tokens.take n) (t.separated.take n) hm
  exact ⟨hd, by rw [check_accepts_iff, hd]⟩

/-- A tree whose brackets in a string, a literal and a comment do not count. -/
example : ∃ t : TokenTree, printTokens t.tokens = "f(\"\x7d\", [\x7bs'[('\x7d]) # (\n" ∧
    mostOpen t.tokens = 3 :=
  ⟨⟨[.leaf (.word ⟨['f'], by simp [isIdentContinue]⟩),
      .group .round [.leaf (.string [.plain '}' (by decide)]), .leaf (.other ⟨',', by decide⟩),
        .leaf (.other ⟨' ', by decide⟩),
        .group .square [.group .curly
          [.leaf (.literal .s [.plain '[' (by decide), .plain '(' (by decide)])]]],
      .leaf (.other ⟨' ', by decide⟩), .leaf (.comment ⟨[' ', '('], by decide⟩)], by decide⟩,
    by decide⟩

theorem ends_at_boundary {p : String} (hp : endMode p = .boundary) :
    Scan.start.readAll p.toList = ⟨.boundary, (Scan.start.readAll p.toList).gauge⟩ := by
  rw [← hp, endMode]

/-- Text around `q` cannot lower its depth once the text before it has ended
its last token. -/
theorem context_keeps_depth (p q s : String) (hp : endMode p = .boundary) :
    maxBracketDepth q ≤ maxBracketDepth (p ++ q ++ s) ∧
    (checkNestingDepth q ≠ .ok () → checkNestingDepth (p ++ q ++ s) ≠ .ok ()) := by
  have hd : maxBracketDepth q ≤ maxBracketDepth (p ++ q ++ s) := by
    rw [max_depth_scan, max_depth_scan, String.toList_append, String.toList_append,
      read_all_append, read_all_append]
    rw [ends_at_boundary hp]
    have hq := read_all_below .boundary
      (Gauge.zero_below (Scan.start.readAll p.toList).gauge) q.toList
    exact Nat.le_trans hq.deepest (deepest_le_read_all _ _)
  refine ⟨hd, ?_⟩
  simp only [ne_eq, check_accepts_iff]
  omega

theorem context_keeps_depth_unbalanced :
    maxBracketDepth "(]" ≤ maxBracketDepth ("\x7d) # (\n" ++ "(]" ++ "\"[") ∧
    (checkNestingDepth "(]" ≠ .ok () →
      checkNestingDepth ("\x7d) # (\n" ++ "(]" ++ "\"[") ≠ .ok ()) :=
  context_keeps_depth "\x7d) # (\n" "(]" "\"[" (by decide)

theorem body_of_text {close : Char} {text : List Char} (h : isBody close text = true) :
    ∃ body : Body close, bodyText body = text := by
  fun_induction isBody close text with
  | case1 => exact ⟨[], rfl⟩
  | case2 => cases h
  | case3 c rest ih =>
    obtain ⟨body, hbody⟩ := ih h
    refine ⟨.escape c :: body, ?_⟩
    rw [← hbody]
    rfl
  | case4 c cs hesc ih =>
    rw [Bool.and_eq_true, decide_eq_true_eq] at h
    obtain ⟨hclose, hcs⟩ := h
    obtain ⟨body, hbody⟩ := ih hcs
    refine ⟨.plain c ⟨hclose, hesc⟩ :: body, ?_⟩
    rw [← hbody]
    rfl

/-- A literal or comment read from a boundary leaves the scan as it was. -/
theorem read_skipped {form : SkippedForm} {body : List Char} (h : form.admits body = true)
    (g : Gauge) : Scan.readAll ⟨.boundary, g⟩ (form.wrap body).toList = ⟨.boundary, g⟩ := by
  cases form with
  | string =>
    obtain ⟨b, rfl⟩ := body_of_text h
    rw [SkippedForm.wrap, String.toList_ofList]
    exact read_token g (.leaf (.string b))
  | literal kind =>
    obtain ⟨b, rfl⟩ := body_of_text h
    rw [SkippedForm.wrap, String.toList_ofList]
    exact read_token g (.leaf (.literal kind b))
  | comment =>
    rw [SkippedForm.wrap, String.toList_ofList]
    exact read_token g (.leaf (.comment ⟨body, of_decide_eq_true h⟩))

/-- Two bodies of one form count the same wherever they stand: what a literal
or a comment holds cannot influence the guard. -/
theorem contents_do_not_count (p q : String) (form : SkippedForm) {b₁ b₂ : List Char}
    (hp : endMode p = .boundary) (h₁ : form.admits b₁ = true) (h₂ : form.admits b₂ = true) :
    maxBracketDepth (p ++ form.wrap b₁ ++ q) = maxBracketDepth (p ++ form.wrap b₂ ++ q) ∧
    checkNestingDepth (p ++ form.wrap b₁ ++ q) = checkNestingDepth (p ++ form.wrap b₂ ++ q) := by
  have hafter : ∀ {b : List Char}, form.admits b = true →
      maxBracketDepth (p ++ form.wrap b ++ q) =
        ((Scan.start.readAll p.toList).readAll q.toList).gauge.deepest := by
    intro b hb
    rw [max_depth_scan, String.toList_append, String.toList_append, read_all_append,
      read_all_append, ends_at_boundary hp, read_skipped hb]
  have hd : maxBracketDepth (p ++ form.wrap b₁ ++ q) =
      maxBracketDepth (p ++ form.wrap b₂ ++ q) := by
    rw [hafter h₁, hafter h₂]
  refine ⟨hd, ?_⟩
  unfold checkNestingDepth
  rw [hd]

theorem brackets_in_regex_do_not_count :
    maxBracketDepth (")[ " ++ (SkippedForm.literal .r).wrap ['(', '\\', '\'', '['] ++ " \"(") =
      maxBracketDepth (")[ " ++ (SkippedForm.literal .r).wrap [] ++ " \"(") ∧
    checkNestingDepth (")[ " ++ (SkippedForm.literal .r).wrap ['(', '\\', '\'', '['] ++ " \"(") =
      checkNestingDepth (")[ " ++ (SkippedForm.literal .r).wrap [] ++ " \"(") :=
  contents_do_not_count ")[ " " \"(" (.literal .r) (by decide) (by decide) (by decide)

end VectorVrl.Proofs.NestingDepth
