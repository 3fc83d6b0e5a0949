import WebSpider.Processor.System

/-!
# The table

What `insert_articles` does to the `articles` table: the rows that were there
stay, and of the rows of a batch those are added whose URL has no row yet. The number it
returns is that of its last page, so it counts the new rows exactly when the pages before
that one added nothing (`insertArticles_counts_iff`).
-/

namespace WebSpider.Processor

open Text Json Effects

variable {F : Type}

theorem mem_insertRow {table : List (Row F)} {row r : Row F} :
    r ∈ table → r ∈ insertRow table row := by
  intro hr
  unfold insertRow
  split
  · exact hr
  · exact List.mem_append_left _ hr

theorem mem_insertRows {table rows : List (Row F)} {r : Row F} (hr : r ∈ table) :
    r ∈ rows.foldl insertRow table := by
  induction rows generalizing table with
  | nil => exact hr
  | cons row rows ih => exact ih (mem_insertRow hr)

theorem insertRows_subset {table rows : List (Row F)} {r : Row F}
    (hr : r ∈ rows.foldl insertRow table) : r ∈ table ∨ r ∈ rows := by
  induction rows generalizing table with
  | nil => exact Or.inl hr
  | cons row rows ih =>
    rcases ih hr with h | h
    · unfold insertRow at h
      split at h
      · exact Or.inl h
      · rcases List.mem_append.mp h with h | h
        · exact Or.inl h
        · exact Or.inr (List.mem_singleton.mp h ▸ List.mem_cons_self)
    · exact Or.inr (List.mem_cons_of_mem _ h)

/-- After the insert every row's URL has a row. -/
theorem exists_urlHash_insertRows (table : List (Row F)) {rows : List (Row F)} {row : Row F}
    (hrow : row ∈ rows) :
    ∃ r ∈ rows.foldl insertRow table, r.urlHash = row.urlHash := by
  induction rows generalizing table with
  | nil => cases hrow
  | cons first rows ih =>
    rcases List.mem_cons.mp hrow with rfl | hrow
    · have hinsert : ∃ r ∈ insertRow table row, r.urlHash = row.urlHash := by
        unfold insertRow
        split
        · rename_i hmem
          obtain ⟨r, hr, heq⟩ := List.mem_map.mp hmem
          exact ⟨r, hr, heq⟩
        · exact ⟨row, List.mem_append_right _ List.mem_cons_self, rfl⟩
      obtain ⟨r, hr, heq⟩ := hinsert
      have hfinal : r ∈ rows.foldl insertRow (insertRow table row) := mem_insertRows hr
      exact ⟨r, hfinal, heq⟩
    · exact ih _ hrow

/-- The rows of a batch that are added: their URLs are new and differ. -/
theorem insertRows_eq (table rows : List (Row F)) :
    ∃ new, rows.foldl insertRow table = table ++ new ∧ new.Sublist rows ∧
      (∀ r ∈ new, r.urlHash ∉ table.map Row.urlHash) ∧
      new.Pairwise fun r r' => r.urlHash ≠ r'.urlHash := by
  induction rows generalizing table with
  | nil => exact ⟨[], (List.append_nil _).symm, List.nil_sublist _, nofun, .nil⟩
  | cons row rows ih =>
    rw [List.foldl_cons]
    by_cases hmem : row.urlHash ∈ table.map Row.urlHash
    · obtain ⟨new, heq, hsub, hfresh, hdiffer⟩ := ih table
      rw [insertRow, if_pos hmem]
      exact ⟨new, heq, hsub.cons _, hfresh, hdiffer⟩
    · obtain ⟨new, heq, hsub, hfresh, hdiffer⟩ := ih (table ++ [row])
      rw [insertRow, if_neg hmem]
      refine ⟨row :: new, ?_, hsub.cons_cons _, ?_, ?_⟩
      · rw [heq, List.append_assoc]
        rfl
      · intro r hr
        rcases List.mem_cons.mp hr with rfl | hr
        · exact hmem
        · have hnot := hfresh r hr
          rw [List.map_append, List.mem_append] at hnot
          exact fun hin => hnot (Or.inl hin)
      · refine List.pairwise_cons.mpr ⟨fun r hr heq => ?_, hdiffer⟩
        have hnot := hfresh r hr
        rw [List.map_append, List.mem_append] at hnot
        exact hnot (Or.inr (List.mem_singleton.mpr heq.symm))

/-! ## The number of new rows -/

theorem length_insertRows (table rows : List (Row F)) :
    table.length ≤ (rows.foldl insertRow table).length ∧
      (rows.foldl insertRow table).length ≤ table.length + rows.length := by
  obtain ⟨new, heq, hsub, -⟩ := insertRows_eq table rows
  have hle := hsub.length_le
  rw [heq, List.length_append]
  omega

/-- Nothing is added when every URL has a row. -/
theorem length_insertRows_eq_iff {table rows : List (Row F)} :
    (rows.foldl insertRow table).length = table.length ↔
      ∀ row ∈ rows, row.urlHash ∈ table.map Row.urlHash := by
  induction rows generalizing table with
  | nil => exact iff_of_true rfl nofun
  | cons row rows ih =>
    rw [List.foldl_cons, List.forall_mem_cons]
    by_cases hrow : row.urlHash ∈ table.map Row.urlHash
    · rw [insertRow, if_pos hrow, ih, and_iff_right hrow]
    · refine iff_of_false ?_ fun h => hrow h.1
      have hlength := (length_insertRows (table ++ [row]) rows).1
      rw [List.length_append, List.length_singleton] at hlength
      rw [insertRow, if_neg hrow]
      omega

/-- Where the last page of 200 rows starts. -/
def lastPage (rows : List (Row F)) : Nat := 200 * ((rows.length - 1) / 200)

/-- The number is what the last page added. -/
theorem insertPages_count (table rows : List (Row F)) :
    (insertPages table rows).1 = (rows.foldl insertRow table).length -
      ((rows.take (lastPage rows)).foldl insertRow table).length := by
  by_cases hne : rows = []
  · subst hne
    rw [List.take_nil, Nat.sub_self]
    rfl
  · obtain ⟨before, last, hpages, hflatten⟩ := Lists.exists_last_page (by decide : 0 < 200) hne
    have hrows : rows = before.flatten ++ last := by
      have hflat := Lists.flatten_pages (by decide : 0 < 200) rows
      rw [hpages, List.flatten_append, List.flatten_singleton] at hflat
      exact hflat.symm
    have hbefore : (rows.take (lastPage rows)).foldl insertRow table =
        before.foldl (fun acc page => page.foldl insertRow acc) table := by
      rw [lastPage, ← hflatten, List.foldl_flatten]
    have harticles := insertPages_articles table rows
    rw [insertPages, hpages, List.foldl_append] at harticles ⊢
    have hfold (n : Nat) (table : List (Row F)) : (before.foldl (fun acc page =>
        ((page.foldl insertRow acc.2).length - acc.2.length, page.foldl insertRow acc.2))
        (n, table)).2 = before.foldl (fun acc page => page.foldl insertRow acc) table := by
      clear hpages hflatten hrows hbefore harticles
      induction before generalizing n table with
      | nil => rfl
      | cons page before ih => exact ih _ _
    rw [hbefore, ← hfold 0 table, ← harticles]
    rfl

theorem insertPages_counts_iff (table rows : List (Row F)) :
    table.length + (insertPages table rows).1 = (insertPages table rows).2.length ↔
      ∀ row ∈ rows.take (lastPage rows), row.urlHash ∈ table.map Row.urlHash := by
  have hbefore := (length_insertRows table (rows.take (lastPage rows))).1
  have hafter := (length_insertRows ((rows.take (lastPage rows)).foldl insertRow table)
    (rows.drop (lastPage rows))).1
  rw [← List.foldl_append, List.take_append_drop] at hafter
  rw [insertPages_count, insertPages_articles, ← length_insertRows_eq_iff]
  omega

theorem insertArticles_returns {env : Surroundings} (henv : env.plan .insert = .returns)
    (rows : List (Row F)) (s : State F) :
    Returns (insertArticles env rows) s (insertPages s.articles rows).1 (s.commit rows) := by
  rw [Returns, insertArticles, henv]
  rfl

/-- `insert_articles` returns the number of new rows exactly when the rows before its last
page of 200 were all in the table. -/
theorem insertArticles_counts_iff (env : Surroundings) (henv : env.plan .insert = .returns)
    (rows : List (Row F)) (s : State F) :
    ∃ n t, Returns (insertArticles env rows) s n t ∧
      t.articles = rows.foldl insertRow s.articles ∧
      (s.articles.length + n = t.articles.length ↔
        ∀ row ∈ rows.take (200 * ((rows.length - 1) / 200)),
          row.urlHash ∈ s.articles.map Row.urlHash) :=
  ⟨_, _, insertArticles_returns henv rows s, insertPages_articles _ _,
    insertPages_counts_iff s.articles rows⟩

/-- A row for the URL with this number. -/
def numbered (n : Nat) : Row TextFloat :=
  { rowOf (.ofTables [] [] []) [] (decimal n) [] (lit "en") n
      ((Toolkit.ofTables [] [] []).assess []).2.2 with urlHash := decimal n }

/-- Two rows for one URL: one is added and counted. -/
theorem insertArticles_counts_iff_twice :
    ∃ n t, Returns (insertArticles (.calm (lit "en")) [numbered 1, numbered 1])
        (State.initial TextFloat) n t ∧
      t.articles = [numbered 1, numbered 1].foldl insertRow [] ∧
      (0 + n = t.articles.length ↔
        ∀ row ∈ [numbered 1, numbered 1].take (200 * ((2 - 1) / 200)), row.urlHash ∈ []) :=
  insertArticles_counts_iff (.calm (lit "en")) rfl [numbered 1, numbered 1]
    (State.initial TextFloat)

/-- Of 201 rows for new URLs only the last one is counted. -/
theorem insertArticles_undercounts :
    ¬ ∀ (env : Surroundings) (rows : List (Row TextFloat)) (s t : State TextFloat) (n : Nat),
      env.plan .insert = .returns → Returns (insertArticles env rows) s n t →
        s.articles.length + n = t.articles.length := by
  intro hcounts
  have hold (rows : List (Row TextFloat)) := (insertPages_counts_iff [] rows).mp
    (hcounts (.calm (lit "en")) rows _ _ _ rfl
      (insertArticles_returns rfl rows (State.initial TextFloat)))
  have hpage : lastPage ((List.range 201).map numbered) = 200 := by
    rw [lastPage, List.length_map, List.length_range]
  have hfirst : 0 ∈ List.range (min 200 201) := List.mem_range.mpr (by decide)
  have hmem : numbered 0 ∈ ((List.range 201).map numbered).take 200 := by
    rw [← List.map_take, List.take_range]
    exact List.mem_map_of_mem hfirst
  exact List.not_mem_nil (hold _ (numbered 0) (hpage ▸ hmem))

/-- A row with this fingerprint is stored. -/
def Stored (s : State F) (h : Nat) : Prop := ∃ row ∈ s.articles, row.contentHash = h

end WebSpider.Processor
