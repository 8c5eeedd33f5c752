import VectorVrl.Proofs.Snapshot

namespace VectorVrl.Proofs.Agreement
open Loading Lookup Snapshot

/-- Cutting a list short before or after collecting is the same where the
elements fail alike or not at all. -/
theorem collect_all_take {α β : Type} {f : α → Except String β} {as : List α}
    (h : (∃ e, ∀ a ∈ as, f a = .error e) ∨ ∀ a ∈ as, ∃ b, f a = .ok b) (n : Nat) :
    collectAll f (as.take (n + 1)) = (collectAll f as).map (List.take (n + 1)) := by
  rcases h with ⟨e, hfail⟩ | hok
  · cases as with
    | nil => rfl
    | cons a rest =>
      have ha := hfail a (List.mem_cons_self ..)
      simp only [List.take_succ_cons, collectAll, ha, bind, Except.bind, Except.map]
  · generalize n + 1 = n
    induction as generalizing n with
    | nil => simp [collectAll, Except.map]
    | cons a rest ih =>
      cases n with
      | zero =>
        have hnone : ∀ b ∈ a :: rest, errorOf (f b) = none := by
          intro b hb
          obtain ⟨c, hc⟩ := hok b hb
          rw [hc, errorOf]
        have hspec := collect_all_spec f (a :: rest)
        rw [List.findSome?_eq_none_iff.mpr hnone] at hspec
        obtain ⟨bs, hbs⟩ := hspec
        rw [hbs]
        rfl
      | succ n =>
        obtain ⟨b, hb⟩ := hok a (List.mem_cons_self ..)
        have hrest := ih (fun a' ha' => hok a' (List.mem_cons_of_mem a ha')) n
        simp only [List.take_succ_cons, collectAll, hb, hrest, bind, Except.bind]
        cases collectAll f rest with
        | error e => rfl
        | ok bs => rfl

/-- Every row of a table carries exactly the table's headers. -/
theorem loaded_rows_mem [Libraries] {t : FileTable} (h : t.Loaded) :
    ∀ row ∈ t.rows, ∀ field, field ∈ row ↔ field ∈ t.headers := by
  induction h with
  | load h =>
    obtain ⟨headers, records, _, _, hlen, rfl⟩ := load_ok_iff.mp h
    intro row hrow field
    obtain ⟨record, hrecord, rfl⟩ := List.mem_map.mp hrow
    exact stored_row_mem (hlen record hrecord) field
  | @indexed t caseSensitive fields _ ih =>
    obtain ⟨hheaders, hrows, _⟩ := index_for_frame t caseSensitive fields
    rw [hheaders, hrows]
    exact ih
  | poisoned left _ ih => exact ih

theorem bind_ok {α β : Type} {x : Except String α} {f : α → Except String β} {b : β}
    (h : x >>= f = .ok b) : ∃ a, x = .ok a ∧ f a = .ok b := by
  cases x with
  | error e => cases h
  | ok a => exact ⟨a, rfl, h⟩

section
variable {Ctx : Type}

theorem run_bind {α β : Type} (x : Eval Ctx α) (f : α → Eval Ctx β) (ctx : Ctx) :
    (x >>= f).run.run ctx =
      match x.run.run ctx with
      | (.ok a, ctx') => (f a).run.run ctx'
      | (.error e, ctx') => (.error e, ctx') := by
  simp only [ExceptT.run_bind, StateT.run_bind]
  cases hx : x.run.run ctx with
  | mk result ctx' => cases result <;> rfl

theorem run_lift {α : Type} (x : Except String α) (ctx : Ctx) :
    (liftError x).run.run ctx = (x.mapError .error, ctx) := by
  cases x <;> rfl

end

section
variable [Libraries]

/-- A select list fails on every row with one error or on none. -/
theorem narrow_alike {rows : List ObjectMap} {headers : List String}
    (h : ∀ row ∈ rows, ∀ field, field ∈ row ↔ field ∈ headers) (select : Option (List String)) :
    (∃ e, ∀ row ∈ rows, narrow select row = .error e) ∨
      ∀ row ∈ rows, ∃ out, narrow select row = .ok out := by
  cases select with
  | none => exact Or.inr fun row _ => ⟨row, rfl⟩
  | some keys =>
    have hfind : ∀ row ∈ rows,
        keys.find? (fun key => row[key]?.isNone) = keys.find? (· ∉ headers) := by
      intro row hrow
      congr 1
      funext key
      rw [Bool.eq_iff_iff, decide_eq_true_iff, ← h row hrow key,
        Std.ExtTreeMap.mem_iff_isSome_getElem?, Option.isNone_iff_eq_none, Option.not_isSome_iff_eq_none]
    cases hmissing : keys.find? (· ∉ headers) with
    | some key =>
      refine Or.inl ⟨s!"field {debugStr key} not found in enrichment table row", ?_⟩
      intro row hrow
      simp only [narrow, hfind row hrow, hmissing]
    | none =>
      refine Or.inr fun row hrow => ⟨row.filter fun key _ => key ∈ keys, ?_⟩
      simp only [narrow, hfind row hrow, hmissing]

/-- Asking a table for one row gives the first two of all its rows. -/
theorem file_rows_one {t : FileTable} (h : t.Loaded) (caseSensitive : Bool) (fields : List String)
    (conditions : List (String × Value)) (select : Option (List String)) :
    t.findRows (t.indexFor caseSensitive fields).1 conditions caseSensitive select .one =
      (t.findRows (t.indexFor caseSensitive fields).1 conditions caseSensitive select .all).map
        (List.take 2) := by
  rw [index_for_eq (loaded_coherent h)]
  cases fields.all t.hasColumn with
  | false =>
    simp only [FileTable.findRows, Bool.false_eq_true, if_false]
    split
    · split <;> rfl
    · rfl
  | true =>
    simp only [FileTable.findRows, if_true, wanted_rows]
    cases collectAll (FileTable.conditionKey caseSensitive) conditions with
    | error e => rfl
    | ok key =>
      have hmem : ∀ row ∈ t.rows.filter fun row =>
          FileTable.rowKey (caseSensitive, fields) row = some key,
          ∀ field, field ∈ row ↔ field ∈ t.headers :=
        fun row hrow => loaded_rows_mem h row (List.mem_of_mem_filter hrow)
      have hnarrow := narrow_alike hmem select
      simp only [bind, Except.bind, Wanted.take, ← apply_select_eq] at hnarrow ⊢
      exact collect_all_take hnarrow 1

theorem geoip_rows_short {t : GeoipTable} {conditions : List (String × Value)}
    {select : Option (List String)} {rows : List ObjectMap}
    (h : t.findRows conditions select = .ok rows) : rows.length ≤ 1 := by
  unfold GeoipTable.findRows at h
  split at h
  · rename_i field value
    obtain ⟨text, _, h⟩ := bind_ok h
    split at h
    · obtain ⟨decoded, _, h⟩ := bind_ok h
      obtain ⟨record, _, h⟩ := bind_ok h
      split at h
      · obtain ⟨converted, _, h⟩ := bind_ok h
        split at h
        · obtain ⟨row, _, h⟩ := bind_ok h
          cases h
          exact Nat.le_refl 1
        · cases h
      · cases h
        exact Nat.zero_le 1
    · cases h
  · cases h

/-- Asking for one row gives the first two of all rows, whatever the kind of table. -/
theorem find_rows_one {found : EnrichmentTable} (h : ∀ t, found = .file t → t.Loaded)
    (caseSensitive : Bool) (fields : List String) (conditions : List (String × Value))
    (select : Option (List String)) :
    found.findRows (found.indexFor caseSensitive fields).1 conditions caseSensitive select .one =
      (found.findRows (found.indexFor caseSensitive fields).1 conditions caseSensitive select
        .all).map (List.take 2) := by
  cases found with
  | file t => exact file_rows_one (h t rfl) caseSensitive fields conditions select
  | geoip t =>
    simp only [EnrichmentTable.findRows]
    cases hrows : t.findRows conditions select with
    | error e => rfl
    | ok rows =>
      have hshort := geoip_rows_short hrows
      rw [Except.map, List.take_of_length_le (by omega)]

theorem only_row_take (table : String) (rows : List ObjectMap) :
    onlyRow table (rows.take 2) = onlyRow table rows := by
  cases rows with
  | nil => rfl
  | cons row rest => cases rest <;> rfl

/-- The cut to two rows never changes what is made of the rows. -/
theorem only_row_of_one {found : EnrichmentTable} (h : ∀ t, found = .file t → t.Loaded)
    (caseSensitive : Bool) (fields : List String) (conditions : List (String × Value))
    (select : Option (List String)) (table : String) :
    (found.findRows (found.indexFor caseSensitive fields).1 conditions caseSensitive select
        .one).bind (onlyRow table) =
      (found.findRows (found.indexFor caseSensitive fields).1 conditions caseSensitive select
        .all).bind (onlyRow table) := by
  rw [find_rows_one h]
  cases found.findRows (found.indexFor caseSensitive fields).1 conditions caseSensitive select
    .all with
  | error e => rfl
  | ok rows => exact only_row_take table rows

section
variable {Ctx : Type}

/-- The condition and select list are resolved alike by both functions. -/
theorem resolve_get (found : EnrichmentTable) (args : CompiledArgs Ctx) (ctx : Ctx) :
    (resolveOn found .getEnrichmentTableRecord args).run.run ctx =
      match (resolveLookup args.condition args.select).run.run ctx with
      | (.ok (conditions, select), ctx') =>
        ((((found.findRows args.index conditions args.caseSensitive select .one).bind
          (onlyRow args.table)).mapError .error).map Value.ofMap, ctx')
      | (.error e, ctx') => (.error e, ctx') := by
  rw [resolveOn, run_bind]
  cases hr : (resolveLookup args.condition args.select).run.run ctx with
  | mk resolved ctx' =>
    cases resolved with
    | error e => rfl
    | ok lookup =>
      obtain ⟨conditions, select⟩ := lookup
      simp only [run_bind, run_lift]
      cases found.findRows args.index conditions args.caseSensitive select .one with
      | error e => rfl
      | ok rows =>
        cases rows with
        | nil => rfl
        | cons row rest => cases rest <;> rfl

theorem resolve_find (found : EnrichmentTable) (args : CompiledArgs Ctx) (ctx : Ctx) :
    (resolveOn found .findEnrichmentTableRecords args).run.run ctx =
      match (resolveLookup args.condition args.select).run.run ctx with
      | (.ok (conditions, select), ctx') =>
        (((found.findRows args.index conditions args.caseSensitive select .all).mapError
          .error).map foundRows, ctx')
      | (.error e, ctx') => (.error e, ctx') := by
  rw [resolveOn, run_bind]
  cases hr : (resolveLookup args.condition args.select).run.run ctx with
  | mk resolved ctx' =>
    cases resolved with
    | error e => rfl
    | ok lookup =>
      obtain ⟨conditions, select⟩ := lookup
      simp only [run_bind, run_lift]
      cases found.findRows args.index conditions args.caseSensitive select .all <;> rfl

theorem lookup_on_eq (found : EnrichmentTable) (table : String) (fn : LookupFn)
    (arguments : ArgumentList Ctx) (ctx : Ctx) :
    lookupOn found table fn arguments ctx =
      (compileOn found 0 table arguments).1.toOption.map fun args =>
        (resolveOn found fn args).run.run ctx := by
  have hkeeps := compile_on_keeps found 0 table arguments
  unfold lookupOn
  cases hc : compileOn found 0 table arguments with
  | mk compiled found' =>
    rw [hc] at hkeeps
    cases compiled with
    | error e => rfl
    | ok args =>
      have hsame : resolveOn found' fn args = resolveOn found fn args :=
        resolve_on_contents hkeeps fn args
      simp only [hsame, Except.toOption, Option.map_some]

theorem compile_on_index {found : EnrichmentTable} {data : Nat} {table : String}
    {arguments : ArgumentList Ctx} {args : CompiledArgs Ctx}
    (h : (compileOn found data table arguments).1 = .ok args) :
    args.table = table ∧
      ∃ fields, args.index = (found.indexFor args.caseSensitive fields).1 := by
  unfold compileOn at h
  split at h
  · cases h
  · cases h
  · cases h
    exact ⟨rfl, _, rfl⟩

/-- A lookup of one row does what the rows that are found alike determine, and
the cut to two rows never changes it. -/
theorem get_determined_by_find {found : EnrichmentTable} (h : ∀ t, found = .file t → t.Loaded)
    (table : String) :
    (∀ (conditions : BTreeMap Value) caseSensitive select,
      (found.findRows (found.indexFor caseSensitive conditions.keys).1 conditions.toList
          caseSensitive select .one).bind (onlyRow table) =
        (found.findRows (found.indexFor caseSensitive conditions.keys).1 conditions.toList
          caseSensitive select .all).bind (onlyRow table)) ∧
    ∀ (arguments : ArgumentList Ctx) ctx,
      lookupOn found table .getEnrichmentTableRecord arguments ctx = none ∧
        lookupOn found table .findEnrichmentTableRecords arguments ctx = none ∨
      ∃ (rows : Except ExpressionError (List ObjectMap)) (ctx' : Ctx),
        lookupOn found table .findEnrichmentTableRecords arguments ctx =
          some (rows.map foundRows, ctx') ∧
        lookupOn found table .getEnrichmentTableRecord arguments ctx =
          some ((rows.bind fun rows => (onlyRow table rows).mapError .error).map Value.ofMap,
            ctx') := by
  refine ⟨fun conditions caseSensitive select => only_row_of_one h _ _ _ _ _, ?_⟩
  intro arguments ctx
  rw [lookup_on_eq, lookup_on_eq]
  cases hc : (compileOn found 0 table arguments).1 with
  | error e => exact Or.inl ⟨rfl, rfl⟩
  | ok args =>
    obtain ⟨htable, fields, hindex⟩ := compile_on_index hc
    refine Or.inr ?_
    simp only [Except.toOption, Option.map_some, Option.some.injEq]
    rw [resolve_find, resolve_get, htable]
    cases (resolveLookup args.condition args.select).run.run ctx with
    | mk resolved ctx' =>
      cases resolved with
      | error e => exact ⟨.error e, ctx', rfl, rfl⟩
      | ok lookup =>
        obtain ⟨conditions, select⟩ := lookup
        refine ⟨(found.findRows args.index conditions args.caseSensitive select .all).mapError
          .error, ctx', rfl, ?_⟩
        simp only [hindex, only_row_of_one h]
        cases found.findRows (found.indexFor args.caseSensitive fields).1 conditions
          args.caseSensitive select .all <;> rfl

end

end

section
local instance : Libraries := asciiLibraries

theorem users_get_determined :
    lookupOn (.file usersTable) "users" .getEnrichmentTableRecord findBob () = none ∧
      lookupOn (.file usersTable) "users" .findEnrichmentTableRecords findBob () = none ∨
    ∃ (rows : Except ExpressionError (List ObjectMap)) (ctx' : Unit),
      lookupOn (.file usersTable) "users" .findEnrichmentTableRecords findBob () =
        some (rows.map foundRows, ctx') ∧
      lookupOn (.file usersTable) "users" .getEnrichmentTableRecord findBob () =
        some ((rows.bind fun rows => (onlyRow "users" rows).mapError .error).map Value.ofMap,
          ctx') :=
  (@get_determined_by_find _ Unit (.file usersTable)
    (fun _ ht => EnrichmentTable.file.inj ht ▸ .load load_users) "users").2 findBob ()

end

end VectorVrl.Proofs.Agreement
