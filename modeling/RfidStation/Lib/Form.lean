import RfidStation.Lib.Lines
import RfidStation.Lib.Percent

/-! A form body: fields `name=value` with '&' between them, '+' for a space and percent-encoded
bytes. What a value reads back as. -/
namespace Form
open Cstr

def fields (body : Bytes) : List (Bytes × Bytes) :=
  (body.splitOn 38).map (fun field => (Lines.before 61 field,Lines.after 61 field))

def unescape (value : Bytes) : Option Bytes :=
  Percent.decode (value.map (fun c => if c = 43 then 32 else c))

def value (name body : Bytes) : Option Bytes := ((fields body).lookup name).bind unescape

def Plain (text : Bytes) : Prop := 38 ∉ text ∧ 37 ∉ text ∧ 43 ∉ text

instance (text : Bytes) : Decidable (Plain text) := inferInstanceAs (Decidable (_ ∧ _ ∧ _))

theorem fieldRead {name : Bytes} (inName : 61 ∉ name) (text : Bytes) :
    (Lines.before 61 (name ++ 61 :: text),Lines.after 61 (name ++ 61 :: text)) = (name,text) := by
  have all : ∀ c ∈ name, (c != 61) = true := fun c mem => bne_iff_ne.mpr (fun same => inName (same ▸ mem))
  rw [Lines.before,Lines.after,List.takeWhile_append_of_pos all,List.dropWhile_append_of_pos all]
  simp

theorem fieldsLast {name text : Bytes} (inName : 38 ∉ name ∧ 61 ∉ name) (inText : 38 ∉ text) :
    fields (name ++ 61 :: text) = [(name,text)] := by
  have one : 38 ∉ name ++ 61 :: text := by simp [inName.1,inText]
  rw [fields,List.splitOn_eq_singleton one,List.map_singleton,fieldRead inName.2]

theorem fieldsCons {name text : Bytes} (inName : 38 ∉ name ∧ 61 ∉ name) (inText : 38 ∉ text) (rest : Bytes) :
    fields (name ++ 61 :: text ++ 38 :: rest) = (name,text) :: fields rest := by
  have one : 38 ∉ name ++ 61 :: text := by simp [inName.1,inText]
  rw [fields,List.splitOn_append_cons_self_of_not_mem one,List.map_cons,fieldRead inName.2,fields]

-- The first field ends at the first '&', which may be inside the text.
theorem lookupFirst {name : Bytes} (inName : 38 ∉ name ∧ 61 ∉ name) (text rest : Bytes) :
    (fields (name ++ 61 :: text ++ 38 :: rest)).lookup name = some (Lines.before 38 text) := by
  by_cases inside : 38 ∈ text
  · have split : name ++ 61 :: text ++ 38 :: rest =
        name ++ 61 :: Lines.before 38 text ++ 38 :: (Lines.after 38 text ++ 38 :: rest) := by
      conv_lhs => rw [← Lines.atFirst inside]
      simp
    rw [split,fieldsCons inName Lines.beforeWithout]
    exact List.lookup_cons_self
  · rw [fieldsCons inName inside,Lines.beforeWhole inside]
    exact List.lookup_cons_self

theorem lookupSecond {name other text last : Bytes} (inName : 38 ∉ name ∧ 61 ∉ name)
    (inOther : 38 ∉ other ∧ 61 ∉ other) (differ : other ≠ name) (inText : 38 ∉ text) (inLast : 38 ∉ last) :
    (fields (name ++ 61 :: text ++ 38 :: (other ++ 61 :: last))).lookup other = some last := by
  rw [fieldsCons inName inText,fieldsLast inOther inLast]
  rw [List.lookup_cons,beq_eq_false_iff_ne.mpr differ]
  exact List.lookup_cons_self

theorem spacesEscape (text : Bytes) :
    37 ∈ text.map (fun c => if c = 43 then 32 else c) ↔ 37 ∈ text := by
  rw [List.mem_map]
  constructor
  · rintro ⟨c,mem,same⟩
    split at same
    · exact absurd same (by decide)
    · exact same ▸ mem
  · exact fun mem => ⟨37,mem,rfl⟩

theorem spacesPlain {text : Bytes} (spaces : 43 ∉ text) :
    text.map (fun c => if c = 43 then 32 else c) = text := by
  refine (List.map_congr_left fun c mem => ?_).trans (List.map_id text)
  exact if_neg (fun same : c = 43 => spaces (same ▸ mem))

theorem unescapePlain {text : Bytes} (escapes : 37 ∉ text) (spaces : 43 ∉ text) :
    unescape text = some text := by
  rw [unescape,spacesPlain spaces,Percent.decodeWhole escapes]

theorem unescapeLength {text read : Bytes} (reads : unescape text = some read) :
    read.length ≤ text.length ∧ (read.length = text.length → 37 ∉ text) := by
  have short := Percent.decodeShort reads
  rw [List.length_map,spacesEscape] at short
  exact short

theorem unescapeIff {text : Bytes} (graphic : 32 ∉ text) :
    unescape text = some text ↔ 37 ∉ text ∧ 43 ∉ text := by
  refine ⟨fun reads => ?_,fun plain => unescapePlain plain.1 plain.2⟩
  have escapes := (unescapeLength reads).2 rfl
  refine ⟨escapes,fun space => graphic ?_⟩
  rw [unescape,Percent.decodeWhole (by rwa [spacesEscape]),Option.some.injEq] at reads
  rw [← reads]
  exact List.mem_map.mpr ⟨43,space,rfl⟩

theorem firstReads {name text : Bytes} (inName : 38 ∉ name ∧ 61 ∉ name) (graphic : 32 ∉ text)
    (rest : Bytes) : value name (name ++ 61 :: text ++ 38 :: rest) = some text ↔ Plain text := by
  rw [value,lookupFirst inName,Option.bind_some]
  constructor
  · intro reads
    have short := (unescapeLength reads).1
    have inText : 38 ∉ text := by
      intro mem
      have longer := Lines.firstLength mem
      omega
    rw [Lines.beforeWhole inText] at reads
    exact ⟨inText,(unescapeIff graphic).mp reads⟩
  · intro plain
    rw [Lines.beforeWhole plain.1]
    exact (unescapeIff graphic).mpr plain.2

end Form
