/-
# The dump of a database

A database is a list of tables, each with its indexes.  The names of the tables and of the
indexes, and the slots of the indexes, are pairwise different, as the dictionaries make
sure when they are created.  The loop that loads a dump is followed record by record: what
a record adds to the database is there at the end, since no later record writes to its slot.
-/
import AlchemyDB.Rdb.RoundTrip

namespace AlchemyDB.Rdb

open Catalog Row Store

/-! ## Records -/

section Loads

variable (sc : StringObject) (fcmp : List UInt8 → List UInt8 → Int) (runLua : Sds → Sds → Sds → Bool)

/-- The loop takes `n` records off the file. -/
def Loads (n : Nat) (db : Db) (bytes : List UInt8) (db' : Db) : Prop :=
  ∀ fuel rest, rdbLoad sc fcmp runLua (fuel + n) db (bytes ++ rest) = rdbLoad sc fcmp runLua fuel db' rest

variable {sc fcmp runLua} {db db₁ db' : Db} {x y : List UInt8} {n m : Nat}

theorem loads_none (db : Db) : Loads sc fcmp runLua 0 db [] db := fun _ _ => rfl

theorem loads_record (h : Reads (rdbLoadBT sc fcmp runLua db) x db') :
    Loads sc fcmp runLua 1 db (redisBtree :: x) db' := by
  intro fuel rest
  show (rdbLoadBT sc fcmp runLua db (x ++ rest)).bind (fun p => rdbLoad sc fcmp runLua fuel p.1 p.2) = _
  rw [h rest]
  rfl

theorem Loads.append (h : Loads sc fcmp runLua n db x db₁) (h' : Loads sc fcmp runLua m db₁ y db') :
    Loads sc fcmp runLua (n + m) db (x ++ y) db' := by
  intro fuel rest
  rw [List.append_assoc, Nat.add_comm n m, ← Nat.add_assoc, h, h']

theorem loads_end (fuel : Nat) (db : Db) :
    rdbLoad sc fcmp runLua (fuel + 1) db [redisEof] = some (db, []) := rfl

end Loads

/-! ## Databases -/

/-- The indexes that have a tree. -/
def live (inds : List (Nat × RInd)) : List (Nat × RInd) := inds.filter fun i => i.2.btr.isSome

theorem mem_live {inds : List (Nat × RInd)} {i : Nat × RInd} : i ∈ live inds ↔ i ∈ inds ∧ i.2.btr ≠ none := by
  rw [live, List.mem_filter, Option.isSome_iff_ne_none]

namespace Entry

variable (e : Entry)

/-- The slots of `Index` that the table uses. -/
def slots : List Nat := e.rt.vimatch :: (live e.inds).map Prod.fst

/-- The names in `IndD` of the table's indexes. -/
def inames : List Sds := fold e.rt.pkIndex :: (live e.inds).map fun i => fold i.2.name

/-- The names in `fdict`. -/
def fnames : List Sds := (live e.inds).filterMap fun i => i.2.fname.map fold

end Entry

/-- The tables, each with its indexes. -/
structure Database (runLua : Sds → Sds → Sds → Bool) where
  entries : List Entry
  table : ∀ e ∈ entries, TableOk e.tmatch e.rt
  index : ∀ e ∈ entries, ∀ i ∈ e.inds, i.2.btr ≠ none → IndexOk runLua e.tmatch e.rt i.1 i.2
  tmatches : (entries.map Entry.tmatch).Nodup
  tnames : (entries.map fun e => fold e.rt.name).Nodup
  slots : (entries.flatMap Entry.slots).Nodup
  inames : (entries.flatMap Entry.inames).Nodup
  fnames : ∀ e ∈ entries, e.fnames.Nodup

/-- The records of a dump. -/
def records (es : List Entry) : Nat := (es.map fun e => 1 + e.inds.length).sum

/-! ## A table with its indexes -/

section Entry

variable {sc : StringObject} {fcmp : List UInt8 → List UInt8 → Int} {runLua : Sds → Sds → Sds → Bool}
  {e : Entry} {db₀ db : Db}

/-- The table is loaded, and these of its indexes. -/
structure Part (e : Entry) (db₀ db : Db) (pre : List (Nat × RInd)) : Prop where
  tbl : ∃ rt', db.tbl = upd db₀.tbl e.tmatch (some rt') ∧ TableRestored e.rt rt' ∧
    dnames rt'.fdict = (live pre).filterMap fun i => i.2.fname.map fold
  index : ∀ i ∈ live pre, ∃ ri', db.index i.1 = some ri' ∧ IndexRestored i.2 ri'
  other : ∀ j, j ∉ e.rt.vimatch :: (live pre).map Prod.fst → db.index j = db₀.index j
  tblD : dnames db.tblD = dnames db₀.tblD ++ [fold e.rt.name]
  indD : dnames db.indD = dnames db₀.indD ++ (fold e.rt.pkIndex :: (live pre).map fun i => fold i.2.name)

theorem part_table (hT : TableOk e.tmatch e.rt) (hn : fold e.rt.name ∉ dnames db₀.tblD)
    (hi : fold e.rt.pkIndex ∉ dnames db₀.indD) :
    ∃ bytes db, saveTable sc e.tmatch e.rt = some bytes ∧
      Loads sc fcmp runLua 1 db₀ (redisBtree :: bytes) db ∧ Part e db₀ db [] := by
  obtain ⟨bytes, rt', hsave, R, hf, hread⟩ := table_reads sc fcmp runLua hT hn hi
  refine ⟨bytes, _, hsave, loads_record hread, ⟨⟨rt', rfl, R, by rw [hf]; rfl⟩, ?_, ?_, ?_, ?_⟩⟩
  · exact fun i hi => absurd hi List.not_mem_nil
  · exact fun j hj => upd_ne _ _ fun h => hj (h ▸ List.mem_cons_self)
  · exact List.map_append
  · exact List.map_append

theorem Part.step {pre : List (Nat × RInd)} {i : Nat × RInd} (P : Part e db₀ db pre)
    (hT : TableOk e.tmatch e.rt) (hi : i.2.btr ≠ none → IndexOk runLua e.tmatch e.rt i.1 i.2)
    (hs : (e.rt.vimatch :: (live (pre ++ [i])).map Prod.fst).Nodup)
    (hn : (dnames db₀.indD ++ (fold e.rt.pkIndex :: (live (pre ++ [i])).map fun i => fold i.2.name)).Nodup)
    (hf : ((live (pre ++ [i])).filterMap fun i => i.2.fname.map fold).Nodup) :
    ∃ bytes db', saveIndex sc i.1 i.2 = some bytes ∧
      Loads sc fcmp runLua 1 db (redisBtree :: bytes) db' ∧ Part e db₀ db' (pre ++ [i]) := by
  by_cases hb : i.2.btr = none
  · -- a virtual index is one byte
    have hlive : live (pre ++ [i]) = live pre := by simp [live, hb]
    refine ⟨[255], db, ?_, loads_record fun rest => rfl, ?_⟩
    · simp [saveIndex, indexBytes, hb]
    · exact ⟨hlive ▸ P.tbl, hlive ▸ P.index, hlive ▸ P.other, P.tblD, hlive ▸ P.indD⟩
  · have hI := hi hb
    have hlive : live (pre ++ [i]) = live pre ++ [i] := by
      simp [live, Option.isSome_iff_ne_none.2 hb]
    rw [hlive] at hs hn hf
    obtain ⟨rt', htbl, R, hfd⟩ := P.tbl
    have hrt : db.tbl e.tmatch = some rt' := by
      rw [htbl]
      exact upd_same _ _ _
    rw [List.map_append, ← List.cons_append, ← List.append_assoc, ← P.indD] at hn
    rw [List.map_append, ← List.cons_append] at hs
    rw [List.filterMap_append, ← hfd] at hf
    have hslot : i.1 ∉ e.rt.vimatch :: (live pre).map Prod.fst := fun h =>
      (List.nodup_append.1 hs).2.2 _ h _ (List.mem_singleton.2 rfl) rfl
    obtain ⟨rt'', ri', R', RI, hfd', hread⟩ := index_reads sc fcmp runLua hI hT hrt R
      (fun h => (List.nodup_append.1 hn).2.2 _ h _ (List.mem_singleton.2 rfl) rfl)
      (fun f hf' h => (List.nodup_append.1 hf).2.2 _ h _ (by simp [hf']) rfl)
    refine ⟨_, _, ?_, loads_record hread, ⟨⟨rt'', ?_, R', ?_⟩, ?_, ?_, P.tblD, ?_⟩⟩
    · rw [saveIndex, if_neg]
      rcases hI.strs with ⟨h1, h2⟩ | ⟨f, c, h1, h2⟩ <;> simp [h1, h2]
    · rw [htbl]
      exact upd_upd _ _ _ _
    · rw [hlive, List.filterMap_append, hfd', hfd]
      congr 1
    · rw [hlive]
      intro j hj
      rcases List.mem_append.1 hj with hj | hj
      · obtain ⟨rj, h1, h2⟩ := P.index j hj
        refine ⟨rj, ?_, h2⟩
        rw [← h1]
        exact upd_ne _ _ fun h => hslot (h ▸ List.mem_cons_of_mem _ (List.mem_map_of_mem hj))
      · obtain rfl := List.mem_singleton.1 hj
        exact ⟨ri', upd_same _ _ _, RI⟩
    · rw [hlive]
      intro j hj
      rw [List.map_append, ← List.cons_append, List.mem_append, not_or] at hj
      rw [← P.other j hj.1]
      exact upd_ne _ _ fun h => hj.2 (List.mem_singleton.2 h)
    · rw [hlive, List.map_append, ← List.cons_append, ← List.append_assoc, ← P.indD]
      exact List.map_append

/-- What each record of a table is preceded by. -/
def recordBytes (bs : List (List UInt8)) : List UInt8 := bs.flatMap fun b => redisBtree :: b

theorem live_append (l l' : List (Nat × RInd)) : live (l ++ l') = live l ++ live l' := List.filter_append ..

theorem Part.run (hT : TableOk e.tmatch e.rt)
    (hI : ∀ i ∈ e.inds, i.2.btr ≠ none → IndexOk runLua e.tmatch e.rt i.1 i.2)
    (hs : e.slots.Nodup) (hn : (dnames db₀.indD ++ e.inames).Nodup) (hf : e.fnames.Nodup) :
    ∀ {inds pre : List (Nat × RInd)} {db : Db}, e.inds = pre ++ inds → Part e db₀ db pre →
      ∃ bs db', (inds.mapM fun i => saveIndex sc i.1 i.2) = some bs ∧
        Loads sc fcmp runLua inds.length db (recordBytes bs) db' ∧ Part e db₀ db' e.inds
  | [], pre, db, he, P => by
      rw [List.append_nil] at he
      exact ⟨[], db, rfl, loads_none db, he ▸ P⟩
  | i :: inds, pre, db, he, P => by
      have he' : e.inds = (pre ++ [i]) ++ inds := by rw [he, List.append_assoc]; rfl
      have hl : live e.inds = live (pre ++ [i]) ++ live inds := by rw [he', live_append]
      have hs' := hs
      have hn' := hn
      have hf' := hf
      rw [Entry.slots, hl, List.map_append, ← List.cons_append] at hs'
      rw [Entry.inames, hl, List.map_append, ← List.cons_append, ← List.append_assoc] at hn'
      rw [Entry.fnames, hl, List.filterMap_append] at hf'
      obtain ⟨b, db₁, hb, hload, P₁⟩ := P.step hT (hI i (he ▸ by simp)) hs'.of_append_left
        hn'.of_append_left hf'.of_append_left
      obtain ⟨bs, db', hbs, hload', P'⟩ := Part.run hT hI hs hn hf he' P₁
      refine ⟨b :: bs, db', ?_, ?_, P'⟩
      · rw [List.mapM_cons, hb, hbs]
        rfl
      · rw [List.length_cons, Nat.add_comm]
        exact hload.append hload'

theorem entry_loads (hT : TableOk e.tmatch e.rt)
    (hI : ∀ i ∈ e.inds, i.2.btr ≠ none → IndexOk runLua e.tmatch e.rt i.1 i.2)
    (hs : e.slots.Nodup) (ht : fold e.rt.name ∉ dnames db₀.tblD)
    (hn : (dnames db₀.indD ++ e.inames).Nodup) (hf : e.fnames.Nodup) :
    ∃ bytes db, saveEntry sc e = some bytes ∧ Loads sc fcmp runLua (1 + e.inds.length) db₀ bytes db ∧
      Part e db₀ db e.inds := by
  obtain ⟨t, db₁, hsave, hload, P⟩ := part_table hT ht
    fun h => (List.nodup_append.1 hn).2.2 _ h _ List.mem_cons_self rfl
  obtain ⟨bs, db, hbs, hload', P'⟩ := Part.run hT hI hs hn hf rfl P
  refine ⟨recordBytes (t :: bs), db, ?_, hload.append hload', P'⟩
  rw [saveEntry, hsave, Option.bind_eq_bind, Option.bind_some, hbs]
  rfl

end Entry

/-! ## The whole dump -/

section Whole

variable {sc : StringObject} {fcmp : List UInt8 → List UInt8 → Int} {runLua : Sds → Sds → Sds → Bool}

/-- These tables and their indexes are loaded, and no others. -/
structure LoadedDb (es : List Entry) (db : Db) : Prop where
  tables : ∀ e ∈ es, ∃ rt', db.tbl e.tmatch = some rt' ∧ TableRestored e.rt rt'
  none : ∀ t, t ∉ es.map Entry.tmatch → db.tbl t = none
  indexes : ∀ e ∈ es, ∀ i ∈ live e.inds, ∃ ri', db.index i.1 = some ri' ∧ IndexRestored i.2 ri'
  tblD : dnames db.tblD = es.map fun e => fold e.rt.name
  indD : dnames db.indD = es.flatMap Entry.inames

theorem LoadedDb.step {es : List Entry} {e : Entry} {db db' : Db} (L : LoadedDb es db)
    (P : Part e db db' e.inds) (ht : e.tmatch ∉ es.map Entry.tmatch)
    (hs : ∀ e' ∈ es, ∀ i ∈ live e'.inds, i.1 ∉ e.slots) : LoadedDb (es ++ [e]) db' := by
  obtain ⟨rt', htbl, R, -⟩ := P.tbl
  refine ⟨fun e' he => ?_, fun t h => ?_, fun e' he i hi => ?_, ?_, ?_⟩
  · rcases List.mem_append.1 he with he | he
    · obtain ⟨r, h1, h2⟩ := L.tables e' he
      refine ⟨r, ?_, h2⟩
      rw [htbl, ← h1]
      exact upd_ne _ _ fun h => ht (h ▸ List.mem_map_of_mem he)
    · obtain rfl := List.mem_singleton.1 he
      exact ⟨rt', by rw [htbl]; exact upd_same _ _ _, R⟩
  · rw [List.map_append, List.mem_append, not_or] at h
    rw [htbl, ← L.none t h.1]
    exact upd_ne _ _ fun he => h.2 (List.mem_singleton.2 he)
  · rcases List.mem_append.1 he with he | he
    · obtain ⟨r, h1, h2⟩ := L.indexes e' he i hi
      exact ⟨r, (P.other _ (hs e' he i hi)).trans h1, h2⟩
    · obtain rfl := List.mem_singleton.1 he
      exact P.index i hi
  · rw [P.tblD, L.tblD, List.map_append]
    rfl
  · rw [P.indD, L.indD, List.flatMap_append]
    simp [Entry.inames]

theorem LoadedDb.run (D : Database runLua) : ∀ {es pre : List Entry} {db : Db}, D.entries = pre ++ es →
    LoadedDb pre db → ∃ bs db', es.mapM (saveEntry sc) = some bs ∧
      Loads sc fcmp runLua (records es) db bs.flatten db' ∧ LoadedDb D.entries db'
  | [], pre, db, he, L => by
      rw [List.append_nil] at he
      exact ⟨[], db, rfl, loads_none db, he ▸ L⟩
  | e :: es, pre, db, he, L => by
      have hmem : e ∈ D.entries := by rw [he]; simp
      have he' : D.entries = (pre ++ [e]) ++ es := by rw [he, List.append_assoc]; rfl
      have ht := D.tmatches
      have hnm := D.tnames
      have hsl := D.slots
      have hin := D.inames
      rw [he, List.map_append, List.map_cons] at ht hnm
      rw [he, List.flatMap_append, List.flatMap_cons] at hsl hin
      obtain ⟨bytes, db₁, hsave, hload, P⟩ := entry_loads
        (D.table e hmem) (D.index e hmem) (hsl.of_append_right.of_append_left)
        (fun h => (List.nodup_append.1 hnm).2.2 _ (L.tblD ▸ h) _ List.mem_cons_self rfl)
        (by
          rw [← List.append_assoc] at hin
          rw [L.indD]
          exact hin.of_append_left) (D.fnames e hmem)
      have L₁ := L.step P (fun h => (List.nodup_append.1 ht).2.2 _ h _ List.mem_cons_self rfl)
        fun e' h' i hi hm => (List.nodup_append.1 hsl).2.2 i.1
          (List.mem_flatMap.2 ⟨e', h', List.mem_cons_of_mem _ (List.mem_map_of_mem hi)⟩) i.1
          (List.mem_append_left _ hm) rfl
      obtain ⟨bs, db', hbs, hload', L'⟩ := LoadedDb.run D he' L₁
      refine ⟨bytes :: bs, db', ?_, ?_, L'⟩
      · rw [List.mapM_cons, hsave, hbs]
        rfl
      · exact hload.append hload'

end Whole

end AlchemyDB.Rdb
