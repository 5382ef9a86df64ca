import Mathlib.Data.List.Perm.Basic
import Mathlib.Data.List.Nodup
import WireServer.Http.ResponseHead
import WireServer.Proofs.Http.Framing

/-! Header fields as a list of lines. Setting a name and taking one out touch the lines of that name
only, so what a response head says about its framing is decided where it is encoded, whatever the
application put there. -/

namespace WireServer.Http

namespace Fields

/-- A name that can be stored: a token in lowercase. -/
def LegalName (name : Bytes) : Prop := name ≠ [] ∧ name.all isToken ∧ lowercase name = name

instance (name : Bytes) : Decidable (LegalName name) := inferInstanceAs (Decidable (_ ∧ _ ∧ _))

/-- Fields that can stand in a head: no name twice, and names and values of the bytes that they may
have. -/
structure Legal (h : Fields) : Prop where
  distinct : (h.groups.map Prod.fst).Nodup
  names : ∀ g ∈ h.groups, LegalName g.1
  values : ∀ g ∈ h.groups, ∀ v ∈ g.2, v.all isFieldValue

variable {h : Fields} {name value : Bytes}

theorem Legal.line (hlegal : h.Legal) {line : Bytes × Bytes} (hline : line ∈ h.toList) :
    LegalName line.1 ∧ line.2.all isFieldValue := by
  simp only [toList, List.mem_flatMap, List.mem_map] at hline
  obtain ⟨g, hg, v, hv, rfl⟩ := hline
  exact ⟨hlegal.names g hg, hlegal.values g hg v hv⟩

/-- The only place of a name. -/
theorem Legal.exists_split (hlegal : h.Legal) (hin : h.contains name) :
    ∃ front vs back, h.groups = front ++ (name, vs) :: back ∧ (∀ g ∈ front, g.1 ≠ name) ∧
      ∀ g ∈ back, g.1 ≠ name := by
  simp only [contains, List.any_eq_true, beq_iff_eq] at hin
  obtain ⟨⟨_, vs⟩, hmem, rfl⟩ := hin
  obtain ⟨front, back, hsplit⟩ := List.append_of_mem hmem
  have hdistinct := hlegal.distinct
  rw [hsplit, List.map_append, List.map_cons, List.nodup_middle, List.nodup_cons, List.mem_append,
    not_or] at hdistinct
  exact ⟨front, vs, back, hsplit, fun g hg hname => hdistinct.1.1 (hname ▸ List.mem_map_of_mem hg),
    fun g hg hname => hdistinct.1.2 (hname ▸ List.mem_map_of_mem hg)⟩

/-- The fields of the other names. -/
def others (h : Fields) (name : Bytes) : List (Bytes × List Bytes) :=
  h.groups.filter fun g => g.1 ≠ name

theorem others_eq {front back : List (Bytes × List Bytes)} {vs : List Bytes}
    (hsplit : h.groups = front ++ (name, vs) :: back) (hfront : ∀ g ∈ front, g.1 ≠ name)
    (hback : ∀ g ∈ back, g.1 ≠ name) : h.others name = front ++ back := by
  have hkeep {gs : List (Bytes × List Bytes)} (hgs : ∀ g ∈ gs, g.1 ≠ name) :
      gs.filter (fun g => g.1 ≠ name) = gs :=
    List.filter_eq_self.2 fun g hg => decide_eq_true (hgs g hg)
  rw [others, hsplit, List.filter_append, List.filter_cons, hkeep hfront, hkeep hback]
  simp

theorem others_of_not_contains (hnot : ¬ h.contains name) : h.others name = h.groups := by
  simp only [contains, List.any_eq_true, beq_iff_eq, not_exists, not_and] at hnot
  exact List.filter_eq_self.2 fun g hg => decide_eq_true (hnot g hg)

theorem map_of_names_ne {gs : List (Bytes × List Bytes)} (hgs : ∀ g ∈ gs, g.1 ≠ name)
    (f : Bytes × List Bytes → Bytes × List Bytes) :
    (gs.map fun g => if g.1 == name then f g else g) = gs := by
  refine (List.map_congr_left fun g hg => ?_).trans (List.map_id gs)
  rw [if_neg (by simpa using hgs g hg), id]

/-- A name that is set has one line, and the others keep theirs. -/
theorem Legal.insert_perm (hlegal : h.Legal) (name value : Bytes) :
    (h.insert name value).groups.Perm ((name, [value]) :: h.others name) := by
  unfold insert
  by_cases hin : h.contains name
  · obtain ⟨front, vs, back, hsplit, hfront, hback⟩ := hlegal.exists_split hin
    rw [if_pos hin, others_eq hsplit hfront hback, hsplit, List.map_append, List.map_cons,
      map_of_names_ne hfront fun g => (g.1, [value]), map_of_names_ne hback fun g => (g.1, [value])]
    simp only [beq_self_eq_true, if_true]
    exact List.perm_middle
  · rw [if_neg hin, others_of_not_contains hin]
    exact List.perm_append_singleton _ _

/-- A name that is taken out has no line, and the others keep theirs. -/
theorem Legal.remove_perm (hlegal : h.Legal) (name : Bytes) :
    (h.remove name).groups.Perm (h.others name) := by
  unfold remove
  by_cases hin : h.contains name
  · obtain ⟨front, vs, back, hsplit, hfront, hback⟩ := hlegal.exists_split hin
    rw [if_pos hin, others_eq hsplit hfront hback]
    rcases List.eq_nil_or_concat back with rfl | ⟨back, last, rfl⟩
    · simp [hsplit]
    · -- the last one moves into the gap
      have hlast : (last.1 == name) = false := beq_false_of_ne (hback last (by simp))
      have hsplit' : h.groups = (front ++ (name, vs) :: back) ++ [last] := by simp [hsplit]
      have hback' : ∀ g ∈ back, g.1 ≠ name := fun g hg => hback g (by simp [hg])
      simp only [hsplit', List.getLast?_concat, hlast, Bool.false_eq_true, if_false,
        List.dropLast_concat]
      rw [List.map_append, List.map_cons, map_of_names_ne hfront fun _ => last,
        map_of_names_ne hback' fun _ => last]
      simp only [beq_self_eq_true, if_true, List.concat_eq_append]
      exact (List.perm_append_singleton last back).symm.append_left front
  · rw [if_neg hin, others_of_not_contains hin]

theorem Legal.of_perm (hlegal : h.Legal) {gs : List (Bytes × List Bytes)}
    (hgs : gs.Sublist h.groups) {g : Fields} (hperm : g.groups.Perm gs) : g.Legal where
  distinct := (hperm.map Prod.fst).nodup_iff.2 (hlegal.distinct.sublist (hgs.map Prod.fst))
  names x hx := hlegal.names x (hgs.subset (hperm.subset hx))
  values x hx := hlegal.values x (hgs.subset (hperm.subset hx))

theorem Legal.remove (hlegal : h.Legal) (name : Bytes) : (h.remove name).Legal :=
  hlegal.of_perm List.filter_sublist (hlegal.remove_perm name)

theorem Legal.insert (hlegal : h.Legal) (hname : LegalName name) (hvalue : value.all isFieldValue) :
    (h.insert name value).Legal := by
  have hperm := hlegal.insert_perm name value
  have hsub : (h.others name).Sublist h.groups := List.filter_sublist
  refine ⟨(hperm.map Prod.fst).nodup_iff.2 ?_, fun g hg => ?_, fun g hg => ?_⟩
  · rw [List.map_cons, List.nodup_cons]
    refine ⟨?_, hlegal.distinct.sublist (hsub.map Prod.fst)⟩
    rw [List.mem_map]
    rintro ⟨g, hg, hsame⟩
    exact of_decide_eq_true (List.mem_filter.1 hg).2 hsame
  · rcases List.mem_cons.1 (hperm.subset hg) with rfl | hg
    · exact hname
    · exact hlegal.names g (hsub.subset hg)
  · rcases List.mem_cons.1 (hperm.subset hg) with rfl | hg
    · simpa using hvalue
    · exact hlegal.values g (hsub.subset hg)

theorem toList_perm {g : Fields} {gs : List (Bytes × List Bytes)} (h : g.groups.Perm gs) :
    g.toList.Perm (toList ⟨gs⟩) :=
  h.flatMap_right _

end Fields

/-! ### The framing of a response head -/

namespace ResponseHead

/-- The lines that say how a body is framed. -/
def framingLines (lines : List (Bytes × Bytes)) : List (Bytes × Bytes) :=
  lines.filter fun line => line.1 = contentLength ∨ line.1 = transferEncoding

theorem framingLines_perm {lines lines' : List (Bytes × Bytes)} (h : lines.Perm lines') :
    (framingLines lines).Perm (framingLines lines') := h.filter _

/-- Without the one name and the other, nothing is said about the framing. -/
theorem framingLines_others {gs : List (Bytes × List Bytes)}
    (hlength : ∀ g ∈ gs, g.1 ≠ contentLength) (hcoding : ∀ g ∈ gs, g.1 ≠ transferEncoding) :
    framingLines (Fields.toList ⟨gs⟩) = [] := by
  refine List.filter_eq_nil_iff.2 fun line hline => ?_
  simp only [Fields.toList, List.mem_flatMap, List.mem_map] at hline
  obtain ⟨g, hg, v, -, rfl⟩ := hline
  simp [hlength g hg, hcoding g hg]

theorem name_ne_of_mem_others {h : Fields} {name : Bytes} {g : Bytes × List Bytes}
    (hg : g ∈ h.others name) : g.1 ≠ name :=
  of_decide_eq_true (List.mem_filter.1 hg).2

/-- A framing name that is set, once the other one is out, has the only line about the framing. -/
theorem framingLines_set {h : Fields} (hlegal : h.Legal) {name other value : Bytes}
    (hname : name = contentLength ∧ other = transferEncoding ∨
      name = transferEncoding ∧ other = contentLength) :
    framingLines ((h.remove other).insert name value).toList = [(name, value)] := by
  have hremoved := hlegal.remove_perm other
  have hperm := (hlegal.remove other).insert_perm name value
  have hother : ∀ g ∈ (h.remove other).others name, g.1 ≠ name ∧ g.1 ≠ other := fun g hg =>
    ⟨name_ne_of_mem_others hg,
      name_ne_of_mem_others (hremoved.subset (List.mem_of_mem_filter hg))⟩
  have hnone : framingLines (Fields.toList ⟨(h.remove other).others name⟩) = [] := by
    rcases hname with ⟨rfl, rfl⟩ | ⟨rfl, rfl⟩
    · exact framingLines_others (fun g hg => (hother g hg).1) fun g hg => (hother g hg).2
    · exact framingLines_others (fun g hg => (hother g hg).2) fun g hg => (hother g hg).1
  have hone : framingLines (Fields.toList ⟨(name, [value]) :: (h.remove other).others name⟩) =
      (name, value) :: framingLines (Fields.toList ⟨(h.remove other).others name⟩) :=
    List.filter_cons_of_pos (by rcases hname with h | h <;> simp [h.1])
  have hframing := framingLines_perm (Fields.toList_perm hperm)
  rw [hone, hnone] at hframing
  exact List.perm_singleton.1 hframing

/-- A length is announced in its own field, zero as well. -/
theorem framed_ofLength {r : ResponseHead} (hallows : r.status.allowsBody) (n : Nat) :
    r.framed (.ofLength n) = (r.fields.remove transferEncoding).insert contentLength
      (Bytes.ofString (toString n)) := by
  unfold framed BodySize.ofLength
  rw [if_pos hallows]
  by_cases hzero : n = 0
  · rw [if_pos hzero, hzero]
    rfl
  · rw [if_neg hzero]
    rfl

/-- Whatever the application says about the framing, a head has one line about it if a body may
follow, and none if not. -/
theorem framingLines_framed {r : ResponseHead} (hlegal : r.fields.Legal) :
    (r.status.allowsBody → (∀ n, framingLines (r.framed (.ofLength n)).toList =
        [(contentLength, Bytes.ofString (toString n))]) ∧
      framingLines (r.framed .chunked).toList =
        [(transferEncoding, Bytes.ofString "chunked")]) ∧
    (r.status.allowsBody = false → ∀ size, framingLines (r.framed size).toList = []) := by
  refine ⟨fun hbody => ⟨fun n => ?_, ?_⟩, fun hbody size => ?_⟩
  · rw [framed_ofLength hbody]
    exact framingLines_set hlegal (.inl ⟨rfl, rfl⟩)
  · have hset : r.framed .chunked = (r.fields.remove contentLength).insert transferEncoding
        (Bytes.ofString "chunked") := by
      unfold framed
      rw [if_pos hbody]
      rfl
    rw [hset]
    exact framingLines_set hlegal (.inr ⟨rfl, rfl⟩)
  · have hperm := (hlegal.remove contentLength).remove_perm transferEncoding
    have hnone : framingLines (Fields.toList
        ⟨(r.fields.remove contentLength).others transferEncoding⟩) = [] :=
      framingLines_others (fun g hg => name_ne_of_mem_others
        ((hlegal.remove_perm contentLength).subset (List.mem_of_mem_filter hg)))
        fun g hg => name_ne_of_mem_others hg
    have hframing := framingLines_perm (Fields.toList_perm hperm)
    rw [hnone] at hframing
    unfold framed
    rw [if_neg (by simp [hbody])]
    exact List.perm_nil.1 hframing

theorem legalName_contentLength : Fields.LegalName contentLength := by
  refine ⟨?_, ?_, ?_⟩ <;> decide +kernel

theorem legalName_transferEncoding : Fields.LegalName transferEncoding := by
  refine ⟨?_, ?_, ?_⟩ <;> decide +kernel

/-- The framing field is one that can stand in a head. -/
theorem legal_framed {r : ResponseHead} (hlegal : r.fields.Legal) (size : BodySize)
    (hsize : ∀ n, size = .length n → (Bytes.ofString (toString n)).all isFieldValue) :
    (r.framed size).Legal := by
  unfold framed
  split
  · cases size with
    | length n => exact (hlegal.remove _).insert legalName_contentLength (hsize n rfl)
    | chunked => exact (hlegal.remove _).insert legalName_transferEncoding (by decide +kernel)
    | empty => exact (hlegal.remove _).insert legalName_contentLength (by decide +kernel)
  · exact (hlegal.remove _).remove _

end ResponseHead

end WireServer.Http
