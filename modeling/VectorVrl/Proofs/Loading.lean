import VectorVrl.PlainScan

namespace VectorVrl.Proofs.Loading
open Lib.OrderedMap

section
variable {α β : Type}

theorem collect_all_cons_ok {f : α → Except String β} {a : α} {rest : List α} {bs : List β} :
    collectAll f (a :: rest) = .ok bs ↔
      ∃ b bs', f a = .ok b ∧ collectAll f rest = .ok bs' ∧ bs = b :: bs' := by
  cases hf : f a with
  | error e => simp [collectAll, hf, bind, Except.bind]
  | ok b =>
    cases hr : collectAll f rest with
    | error e => simp [collectAll, hf, hr, bind, Except.bind]
    | ok bs' => simp [collectAll, hf, hr, bind, Except.bind, pure, Except.pure, eq_comm]

/-- Collecting stops at the first error, in order. -/
theorem collect_all_spec (f : α → Except String β) (as : List α) :
    match as.findSome? fun a => errorOf (f a) with
    | some e => collectAll f as = .error e
    | none => ∃ bs, collectAll f as = .ok bs := by
  induction as with
  | nil => exact ⟨[], rfl⟩
  | cons a rest ih =>
    cases hf : f a with
    | error e => simp [collectAll, hf, errorOf, bind, Except.bind]
    | ok b =>
      have hfine : errorOf (f a) = none := by
        rw [hf]
        rfl
      simp only [List.findSome?_cons, hfine]
      split at ih
      · rename_i e he
        simp only [he, collectAll, hf, ih, bind, Except.bind]
      · rename_i hnone
        obtain ⟨bs, hbs⟩ := ih
        simp only [hnone]
        exact ⟨b :: bs, by simp only [collectAll, hf, hbs, bind, Except.bind, pure, Except.pure]⟩

theorem collect_all_congr {f g : α → Except String β} {as : List α} (h : ∀ a ∈ as, f a = g a) :
    collectAll f as = collectAll g as := by
  induction as with
  | nil => rfl
  | cons a rest ih =>
    simp only [collectAll, h a (List.mem_cons_self ..),
      ih fun b hb => h b (List.mem_cons_of_mem a hb)]

end

/-- The row a record of as many cells as headers is stored as. -/
def storedRow (headers cells : List String) : ObjectMap :=
  (headers.zip cells).foldl (fun row (header, cell) => row.insert header (.ofStr cell)) ∅

theorem insert_pairs_get (pairs : List (String × String)) (row : ObjectMap) {header : String}
    (h : header ∈ pairs.map Prod.fst) :
    ∃ cell, (header, cell) ∈ pairs ∧
      (pairs.foldl (fun row (header, cell) => row.insert header (.ofStr cell)) row)[header]? =
        some (.ofStr cell) := by
  induction pairs using List.reverseRecOn with
  | nil => cases h
  | append_singleton before pair ih =>
    obtain ⟨last, cell⟩ := pair
    by_cases heq : last = header
    · subst heq
      exact ⟨cell, by simp, by simp⟩
    · have hbefore : header ∈ before.map Prod.fst := by
        rw [List.map_append, List.mem_append, List.map_singleton, List.mem_singleton] at h
        exact h.resolve_right fun h => heq h.symm
      obtain ⟨cell', hmem, hget⟩ := ih hbefore
      refine ⟨cell', List.mem_append_left _ hmem, ?_⟩
      rw [List.foldl_append, List.foldl_cons, List.foldl_nil, Std.ExtTreeMap.getElem?_insert,
        if_neg (by simpa using heq), hget]

theorem insert_pairs_mem (pairs : List (String × String)) (row : ObjectMap) (header : String) :
    header ∈ pairs.foldl (fun row (header, cell) => row.insert header (.ofStr cell)) row ↔
      header ∈ pairs.map Prod.fst ∨ header ∈ row := by
  induction pairs generalizing row with
  | nil => simp
  | cons pair rest ih =>
    obtain ⟨first, cell⟩ := pair
    simp only [List.foldl_cons, ih, Std.ExtTreeMap.mem_insert, List.map_cons, List.mem_cons,
      Std.LawfulEqCmp.compare_eq_iff_eq]
    tauto

/-- Every row carries exactly the header names. -/
theorem stored_row_mem {headers cells : List String} (hlen : cells.length = headers.length)
    (header : String) : header ∈ storedRow headers cells ↔ header ∈ headers := by
  rw [storedRow, insert_pairs_mem, List.map_fst_zip (Nat.le_of_eq hlen.symm)]
  simp

/-- What a row holds under a header is a field of a column with that header. -/
theorem stored_row_get {headers cells : List String} (hlen : cells.length = headers.length)
    {header : String} (h : header ∈ headers) :
    ∃ (i : Nat) (cell : String), headers[i]? = some header ∧ cells[i]? = some cell ∧
      (storedRow headers cells)[header]? = some (.ofStr cell) := by
  have hmem : header ∈ (headers.zip cells).map Prod.fst := by
    rwa [List.map_fst_zip (Nat.le_of_eq hlen.symm)]
  obtain ⟨cell, hpair, hget⟩ := insert_pairs_get (headers.zip cells) ∅ hmem
  obtain ⟨i, hi⟩ := List.mem_iff_getElem?.mp hpair
  obtain ⟨hheader, hcell⟩ := List.getElem?_zip_eq_some.mp hi
  exact ⟨i, cell, hheader, hcell, hget⟩

theorem load_row_ok_iff {path : String} {headers : List String} {index : Nat}
    {record : Except String (List String)} {row : ObjectMap} :
    FileTable.loadRow path headers index record = .ok row ↔
      ∃ cells, record = .ok cells ∧ cells.length = headers.length ∧
        row = storedRow headers cells := by
  unfold FileTable.loadRow
  cases record with
  | error e => simp [Except.mapError, bind, Except.bind]
  | ok cells =>
    by_cases hlen : cells.length = headers.length
    · simp [Except.mapError, bind, Except.bind, pure, Except.pure, hlen, storedRow, eq_comm]
    · simp [Except.mapError, bind, Except.bind, hlen, throw, throwThe, MonadExceptOf.throw]

theorem load_rows_ok_iff {path : String} {headers : List String}
    {records : List (Except String (List String))} (first : Nat) {rows : List ObjectMap} :
    collectAll (fun (record, index) => FileTable.loadRow path headers index record)
        (records.zipIdx first) = .ok rows ↔
      ∃ cells : List (List String), records = cells.map .ok ∧
        (∀ record ∈ cells, record.length = headers.length) ∧
        rows = cells.map (storedRow headers) := by
  induction records generalizing first rows with
  | nil =>
    constructor
    · intro h
      cases h
      exact ⟨[], rfl, by simp, rfl⟩
    · intro hsome
      obtain ⟨cells, hcells, _, rfl⟩ := hsome
      rw [List.map_eq_nil_iff.mp hcells.symm]
      rfl
  | cons record rest ih =>
    rw [List.zipIdx_cons, collect_all_cons_ok]
    constructor
    · intro hsome
      obtain ⟨row, rows', hrow, hrest, rfl⟩ := hsome
      obtain ⟨cells, rfl, hlen, rfl⟩ := load_row_ok_iff.mp hrow
      obtain ⟨others, rfl, hlens, rfl⟩ := (ih (first + 1)).mp hrest
      exact ⟨cells :: others, rfl, List.forall_mem_cons.mpr ⟨hlen, hlens⟩, rfl⟩
    · intro hsome
      obtain ⟨cells, hcells, hlens, rfl⟩ := hsome
      cases cells with
      | nil => cases hcells
      | cons cell others =>
        obtain ⟨rfl, hrest⟩ := List.cons.inj hcells
        obtain ⟨hlen, hlens⟩ := List.forall_mem_cons.mp hlens
        exact ⟨_, _, load_row_ok_iff.mpr ⟨cell, rfl, hlen, rfl⟩,
          (ih (first + 1)).mpr ⟨others, hrest, hlens, rfl⟩, rfl⟩

/-- The loader accepts exactly the readable tables with a header record and
records of its length, and stores the records in order. -/
theorem load_ok_iff {files : Files} {path : String} {delimiter : UInt8} {t : FileTable} :
    FileTable.load files path delimiter = .ok t ↔
      ∃ (headers : List String) (records : List (List String)),
        files.openCsv path delimiter = .ok ⟨.ok headers, records.map .ok⟩ ∧
        headers ≠ [] ∧ (∀ record ∈ records, record.length = headers.length) ∧
        t = ⟨path, headers, records.map (storedRow headers), ⟨false, ∅⟩⟩ := by
  unfold FileTable.load
  cases ho : files.openCsv path delimiter with
  | error e => simp [Except.mapError, bind, Except.bind]
  | ok reader =>
    obtain ⟨header, records⟩ := reader
    cases header with
    | error e => simp [Except.mapError, bind, Except.bind]
    | ok headers =>
      cases headers with
      | nil => simp [Except.mapError, bind, Except.bind, throw, throwThe, MonadExceptOf.throw]
      | cons name names =>
        have hrows := @load_rows_ok_iff path (name :: names) records 0
        simp only [Except.mapError, bind, Except.bind, List.isEmpty_cons, Bool.false_eq_true,
          if_false]
        constructor
        · intro h
          split at h
          · cases h
          · rename_i rows hcollect
            obtain ⟨cells, rfl, hlens, rfl⟩ := hrows.mp hcollect
            cases h
            exact ⟨name :: names, cells, rfl, by simp, hlens, rfl⟩
        · intro hsome
          obtain ⟨headers, cells, hreader, _, hlens, rfl⟩ := hsome
          obtain ⟨rfl, rfl⟩ := CsvReader.mk.inj (Except.ok.inj hreader) |>.imp_left Except.ok.inj
          rw [hrows.mpr ⟨cells, rfl, hlens, rfl⟩]
          rfl

/-- A load that succeeds starts with an empty cache. -/
theorem load_cache {files : Files} {path : String} {delimiter : UInt8} {t : FileTable}
    (h : FileTable.load files path delimiter = .ok t) : t.indexes = ⟨false, ∅⟩ := by
  obtain ⟨_, _, _, _, _, rfl⟩ := load_ok_iff.mp h
  rfl

theorem of_str_inj {a b : String} (h : Value.ofStr a = Value.ofStr b) : a = b := by
  injection h with hbytes
  exact String.toByteArray_inj.mp hbytes

/-- The rows of whole records keep every cell exactly where repeated headers agree. -/
theorem keeps_cells_iff {headers : List String} {records : List (List String)}
    (hlen : ∀ record ∈ records, record.length = headers.length) (path : String)
    (indexes : Mutex IndexCache) :
    FileTable.KeepsCells ⟨path, headers, records.map (storedRow headers), indexes⟩ headers
        records ↔ RepeatsAgree headers records := by
  constructor
  · intro hkeeps record hrecord i j header hi hj
    obtain ⟨r, hr⟩ := List.mem_iff_getElem?.mp hrecord
    have hcells := hkeeps.cells r record (storedRow headers record) hr (by simp [hr])
    have hcell : ∀ k : Nat, headers[k]? = some header → ∃ cell, record[k]? = some cell := by
      intro k hk
      have hlt := (List.getElem?_eq_some_iff.mp hk).1
      rw [← hlen record hrecord] at hlt
      exact ⟨record[k], List.getElem?_eq_getElem hlt⟩
    obtain ⟨a, ha⟩ := hcell i hi
    obtain ⟨b, hb⟩ := hcell j hj
    have hsame := (hcells i header a hi ha).symm.trans (hcells j header b hj hb)
    rw [ha, hb, of_str_inj (Option.some.inj hsame)]
  · intro hagree
    refine ⟨by simp, ?_⟩
    intro r record row hr hrow i header cell hi hcell
    have hrecord := List.mem_of_getElem? hr
    rw [List.getElem?_map, hr, Option.map_some, Option.some.injEq] at hrow
    obtain ⟨j, last, hj, hlast, hget⟩ :=
      stored_row_get (hlen record hrecord) (List.mem_of_getElem? hi)
    have hsame := hagree record hrecord i j header hi hj
    rw [hcell, hlast, Option.some.injEq] at hsame
    rw [← hrow, hget, hsame]

/-- Ragged records are refused, and what is accepted keeps every cell exactly
where columns of one name hold one field in every record. -/
theorem load_keeps_cells_iff {files : Files} {path : String} {delimiter : UInt8}
    {reader : CsvReader} {headers : List String}
    (hopen : files.openCsv path delimiter = .ok reader) (hheaders : reader.headers = .ok headers) :
    (∀ record, .ok record ∈ reader.records → record.length ≠ headers.length →
      ∃ e, FileTable.load files path delimiter = .error e) ∧
    ∀ t, FileTable.load files path delimiter = .ok t →
      ∃ records : List (List String), reader.records = records.map .ok ∧
        (t.KeepsCells headers records ↔ RepeatsAgree headers records) := by
  obtain ⟨header, rest⟩ := reader
  subst hheaders
  refine ⟨?_, ?_⟩
  · intro record hmem hne
    cases hl : FileTable.load files path delimiter with
    | error e => exact ⟨e, rfl⟩
    | ok t =>
      obtain ⟨headers', records, ho, _, hlen, _⟩ := load_ok_iff.mp hl
      rw [hopen] at ho
      cases ho
      obtain ⟨record', hrecord, heq⟩ := List.mem_map.mp hmem
      cases heq
      exact absurd (hlen record hrecord) hne
  · intro t hl
    obtain ⟨headers', records, ho, _, hlen, rfl⟩ := load_ok_iff.mp hl
    rw [hopen] at ho
    cases ho
    exact ⟨records, rfl, keeps_cells_iff hlen path _⟩

/-- A CSV file with two columns of one name. -/
def repeatedReader : CsvReader := ⟨.ok ["id", "id"], [.ok ["1", "2"]]⟩

def repeatedDisk : Files where
  openCsv _ _ := .ok repeatedReader
  openMmdb _ := .error "No such file or directory"

theorem repeated_header_loses_cell :
    ¬∀ (files : Files) (path : String) (delimiter : UInt8) (headers : List String)
      (records : List (List String)) (t : FileTable),
      files.openCsv path delimiter = .ok ⟨.ok headers, records.map .ok⟩ →
      FileTable.load files path delimiter = .ok t → t.KeepsCells headers records := by
  intro h
  have hkeeps := h repeatedDisk "ids.csv" 44 ["id", "id"] [["1", "2"]] _ rfl rfl
  have hfirst := hkeeps.cells 0 _ _ rfl rfl 0 "id" "1" rfl rfl
  have hsecond := hkeeps.cells 0 _ _ rfl rfl 1 "id" "2" rfl rfl
  have hsame := of_str_inj (Option.some.inj (hfirst.symm.trans hsecond))
  exact absurd hsame (by decide)

theorem repeated_header_iff :
    ∃ records : List (List String), repeatedReader.records = records.map .ok ∧
      (FileTable.KeepsCells ⟨"ids.csv", ["id", "id"], [storedRow ["id", "id"] ["1", "2"]],
          ⟨false, ∅⟩⟩ ["id", "id"] records ↔ RepeatsAgree ["id", "id"] records) :=
  (@load_keeps_cells_iff repeatedDisk "ids.csv" 44 repeatedReader ["id", "id"] rfl rfl).2 _ rfl

end VectorVrl.Proofs.Loading
