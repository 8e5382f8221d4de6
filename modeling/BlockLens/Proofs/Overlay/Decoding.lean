import BlockLens.Proofs.Overlay.Marker
import BlockLens.Proofs.Text.Delimited

set_option autoImplicit false

namespace BlockLens.Render

open Text

theorem toList_toString (n : Nat) : (toString n).toList = Nat.toDigits 10 n := Nat.toList_repr

theorem toList_spanJson (s : Span) :
    (spanJson s).toList = "\x7b\"start\":".toList ++ ((Nat.toDigits 10 s.start ++ [',']) ++
      ("\"end\":".toList ++ (Nat.toDigits 10 s.stop ++ ['\x7d']))) := by
  have hend : ",\"end\":".toList = [','] ++ "\"end\":".toList := by decide
  have hclose : "\x7d".toList = ['\x7d'] := by decide
  unfold spanJson
  rw [String.toList_append, String.toList_append, String.toList_append, String.toList_append,
    toList_toString, toList_toString, hend, hclose]
  simp only [List.append_assoc]

theorem selfDelimiting_span : SelfDelimiting fun s => (spanJson s).toList := by
  rw [funext toList_spanJson]
  have hnumbers := (selfDelimiting_numeral (c := ',') rfl).pair
    ((selfDelimiting_numeral (c := '\x7d') rfl).sign "\"end\":".toList)
  have hspan : ∀ s t : Span, (s.start, s.stop) = (t.start, t.stop) → s = t := by
    rintro ⟨a, b⟩ ⟨c, d⟩ h
    obtain ⟨rfl, rfl⟩ := Prod.mk.inj h
    rfl
  exact (hnumbers.comap hspan).sign "\x7b\"start\":".toList

theorem toList_segmentJson (s : Segment) :
    (segmentJson s).toList = "\x7b\"generated\":".toList ++ ((spanJson s.generated).toList ++
      (",\"original\":".toList ++ ((spanJson s.source).toList ++ "\x7d".toList))) := by
  unfold segmentJson
  rw [String.toList_append, String.toList_append, String.toList_append, String.toList_append]
  simp only [List.append_assoc]

theorem selfDelimiting_segment : SelfDelimiting fun s => (segmentJson s).toList := by
  rw [funext toList_segmentJson]
  have hspans := selfDelimiting_span.pair
    ((selfDelimiting_span.close "\x7d".toList).sign ",\"original\":".toList)
  have hsegment : ∀ s t : Segment, (s.generated, s.source) = (t.generated, t.source) → s = t := by
    rintro ⟨a, b⟩ ⟨c, d⟩ h
    obtain ⟨rfl, rfl⟩ := Prod.mk.inj h
    rfl
  exact (hspans.comap hsegment).sign "\x7b\"generated\":".toList

theorem toList_mapJson (m : SourceMap) :
    (mapJson m).toList = "\x7b\"segments\":[".toList ++
      (([','].intercalate (m.segments.map fun s => (segmentJson s).toList) ++ [']']) ++
        ['\x7d']) := by
  have hclose : "]\x7d".toList = [']'] ++ ['\x7d'] := by decide
  have hcomma : ",".toList = [','] := by decide
  unfold mapJson
  rw [String.toList_append, String.toList_append, String.toList_intercalate, List.map_map, hclose,
    hcomma]
  simp only [List.append_assoc]
  rfl

theorem mapJson_injective {m n : SourceMap} (h : mapJson m = mapJson n) : m = n := by
  have hbrace : ∀ s, ∃ t, (segmentJson s).toList = '\x7b' :: t := by
    intro s
    rw [toList_segmentJson]
    exact ⟨_, rfl⟩
  have hlist := selfDelimiting_segment.intercalate (x := ',') (y := ']') (by decide) (by decide)
    hbrace
  have hmap : ∀ s t : SourceMap, s.segments = t.segments → s = t := by
    rintro ⟨l⟩ ⟨k⟩ rfl
    rfl
  have hwhole := ((hlist.close ['\x7d']).comap hmap).sign "\x7b\"segments\":[".toList
  have htext := congrArg String.toList h
  rw [toList_mapJson, toList_mapJson] at htext
  exact hwhole.injective htext

theorem mapUrl_injective {m n : SourceMap} (h : mapUrl m = mapUrl n) : m = n :=
  mapJson_injective (bytes_injective (base64_injective (List.append_cancel_left h)))

variable {a b : Output} {v w : Int}

theorem output_injective (h : output a v = output b w) :
    a.code = b.code ∧ v = w ∧ a.mapping.map? = b.mapping.map? := by
  -- the lines before the map, if there is one, are the code and the version
  have hfront : ∀ {s t : String}, s.toList ++ '\n' :: versionLine v =
      t.toList ++ '\n' :: versionLine w → s = t ∧ v = w := by
    intro s t hst
    obtain ⟨hcode, hline⟩ := append_cons_inj (newline_not_mem_versionLine v)
      (newline_not_mem_versionLine w) hst
    exact ⟨String.toList_injective hcode, versionLine_injective hline⟩
  have hmapLine := fun m => newline_not_mem_mapLine (newline_not_mem_mapUrl m)
  have htext := congrArg String.toList h
  cases ha : a.mapping.map? with
  | none =>
    rw [toList_output_of_none ha] at htext
    cases hb : b.mapping.map? with
    | none =>
      rw [toList_output_of_none hb] at htext
      obtain ⟨hcode, hv⟩ := hfront htext
      exact ⟨hcode, hv, rfl⟩
    | some n =>
      rw [toList_output_of_some hb] at htext
      have hlast := (append_cons_inj (newline_not_mem_versionLine v) (hmapLine n) htext).2
      exact absurd hlast (versionLine_ne_mapLine v (mapUrl n))
  | some m =>
    rw [toList_output_of_some ha] at htext
    cases hb : b.mapping.map? with
    | none =>
      rw [toList_output_of_none hb] at htext
      have hlast := (append_cons_inj (hmapLine m) (newline_not_mem_versionLine w) htext).2
      exact absurd hlast.symm (versionLine_ne_mapLine w (mapUrl m))
    | some n =>
      rw [toList_output_of_some hb] at htext
      obtain ⟨hlines, hlast⟩ := append_cons_inj (hmapLine m) (hmapLine n) htext
      obtain ⟨hcode, hv⟩ := hfront hlines
      exact ⟨hcode, hv, congrArg some (mapUrl_injective (List.append_cancel_left hlast))⟩

theorem output_congr (hcode : a.code = b.code) (hmap : a.mapping.map? = b.mapping.map?) :
    output a v = output b v := by
  cases ha : a.mapping.map? with
  | none => rw [output_of_none ha, output_of_none (hmap.symm.trans ha), hcode]
  | some m => rw [output_of_some ha, output_of_some (hmap.symm.trans ha), hcode]

theorem output_ne_errorComment (message : String) : output a v ≠ errorComment message := by
  intro h
  refine not_carries_errorComment message v ?_
  rw [← h, carries_output]

/-- What is served for a block that was generated tells the code, the version and the source map,
and none of it is served for a failure. -/
theorem generated_decodable (a b : Output) (v w : Int) (message : String) :
    (generated (.ok (some a)) v = generated (.ok (some b)) w ↔
      a.code = b.code ∧ v = w ∧ a.mapping.map? = b.mapping.map?) ∧
    generated (.ok (some a)) v ≠ some (errorComment message) := by
  refine ⟨⟨fun h => output_injective (Option.some.inj h), ?_⟩, fun h => ?_⟩
  · rintro ⟨hcode, rfl, hmap⟩
    exact congrArg some (output_congr hcode hmap)
  · exact output_ne_errorComment message (Option.some.inj h)

end BlockLens.Render
