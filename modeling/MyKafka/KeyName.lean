import MyKafka.Broker

/-!
# The names of a key

A key is encoded in the name of its directory and of its config file. A topic without slash and null
character gives one plain name, and exactly when the partition number is not negative the name gives
the key back.
-/

namespace MyKafka

open Posix Decimal

namespace TopicPartition

/-- The name of the config file. -/
def cfgName (key : TopicPartition) : Name := key.toString ++ cfgExtension

/-- The key is one component of a path. -/
structure Encodable (key : TopicPartition) : Prop where
  slash : '/' ∉ key.topic
  null : Char.ofNat 0 ∉ key.topic

/-- The key can be read back from its name. -/
structure Decodable (key : TopicPartition) : Prop extends key.Encodable where
  nonneg : 0 ≤ key.partition.toInt

end TopicPartition

theorem notMem_decimalInt {c : Char} (hd : isDigit c = false) (hm : c ≠ '-') (z : ℤ) :
    c ∉ decimalInt z := by
  intro hc
  have hdec : ∀ n, c ∉ decimal n := by
    intro n hn
    rw [numeral_decimal n c hn] at hd
    cases hd
  rw [decimalInt] at hc
  split_ifs at hc
  · rcases List.mem_cons.mp hc with hc | hc
    · exact hm hc
    · exact hdec _ hc
  · exact hdec _ hc

theorem dash_notMem_decimal (n : ℕ) : '-' ∉ decimal n := by
  intro hd
  have := numeral_decimal n '-' hd
  revert this
  decide

namespace TopicPartition

variable {key key' : TopicPartition}

theorem notMem_toString {c : Char} (hd : isDigit c = false) (hm : c ≠ '-') (ht : c ∉ key.topic) :
    c ∉ key.toString := by
  rw [toString, List.mem_append, List.mem_cons, not_or, not_or]
  exact ⟨ht, hm, notMem_decimalInt hd hm _⟩

theorem dash_mem_toString (key : TopicPartition) : '-' ∈ key.toString := by
  simp [toString]

theorem plain_toString (key : TopicPartition) : PlainName key.toString := by
  have hdash := key.dash_mem_toString
  refine ⟨?_, ?_, ?_⟩ <;> rintro he <;> rw [he] at hdash <;> revert hdash <;> decide

theorem plain_cfgName (key : TopicPartition) : PlainName key.cfgName := by
  refine ⟨?_, ?_, ?_⟩ <;> rintro he <;> have := congrArg List.length he <;>
    simp [cfgName, cfgExtension] at this

theorem toString_ne_configName (key : TopicPartition) : key.toString ≠ Broker.configName := by
  intro he
  have hdash := key.dash_mem_toString
  rw [he] at hdash
  revert hdash
  decide

namespace Encodable

theorem components_toString (h : key.Encodable) : components key.toString = [key.toString] :=
  components_eq_singleton (notMem_toString (by decide) (by decide) h.null)
    (notMem_toString (by decide) (by decide) h.slash)

theorem components_cfgName (h : key.Encodable) :
    components (key.toString ++ cfgExtension) = [key.cfgName] := by
  refine components_eq_singleton ?_ ?_
  · rw [List.mem_append, not_or]
    exact ⟨notMem_toString (by decide) (by decide) h.null, by decide⟩
  · rw [List.mem_append, not_or]
    exact ⟨notMem_toString (by decide) (by decide) h.slash, by decide⟩

end Encodable

theorem cfgName_inj (h : key.cfgName = key'.cfgName) : key.toString = key'.toString :=
  List.append_cancel_right h

theorem extension_cfgName (key : TopicPartition) : extension key.cfgName = cfgExtension :=
  extension_append _ (by decide) (by decide)

theorem stem_cfgName (key : TopicPartition) : stem key.cfgName = key.toString :=
  stem_append _ (by decide) (by decide)

theorem decimalInt_partition (h : 0 ≤ key.partition.toInt) :
    decimalInt key.partition.toInt = decimal key.partition.toInt.toNat := by
  rw [decimalInt, if_neg (by omega), show key.partition.toInt.natAbs = key.partition.toInt.toNat by
    omega]

theorem dash_notMem (h : 0 ≤ key.partition.toInt) : '-' ∉ decimalInt key.partition.toInt := by
  rw [decimalInt_partition h]
  exact dash_notMem_decimal _

theorem atoi_partition (h : 0 ≤ key.partition.toInt) :
    ConfigManager.atoi (decimalInt key.partition.toInt) = key.partition := by
  have hlt := Int32.toInt_lt key.partition
  rw [ConfigManager.atoi, decimalInt_partition h, leadingInt_numeral (numeral_decimal _),
    digitsValue_decimal, Int.toNat_of_nonneg h, min_eq_right (by omega), max_eq_right (by omega)]
  exact Int32.ofInt_toInt _

/-- The name of the config file gives a key with a partition number that is not negative back. -/
theorem decodeName_nonneg (h : 0 ≤ key.partition.toInt) :
    ConfigManager.decodeName key.cfgName = some key := by
  rw [ConfigManager.decodeName, if_neg (by rw [extension_cfgName]; simp), stem_cfgName, toString,
    splitLast_append _ (dash_notMem h)]
  dsimp only
  rw [atoi_partition h, if_neg]
  rintro ⟨hzero, hany⟩
  rw [hzero] at hany
  revert hany
  decide

namespace Decodable

theorem decodeName (h : key.Decodable) : ConfigManager.decodeName key.cfgName = some key :=
  decodeName_nonneg h.nonneg

theorem toString_inj (h : key.Decodable) (h' : key'.Decodable) (he : key.toString = key'.toString) :
    key = key' := by
  have hname : key.cfgName = key'.cfgName := by rw [cfgName, cfgName, he]
  have hd := h.decodeName
  rw [hname, h'.decodeName] at hd
  exact (Option.some.inj hd).symm

end Decodable

/-! ## Names that are read -/

/-- What reading makes of the name of any key. -/
theorem splitLast_toString (key : TopicPartition) :
    splitLast '-' key.toString =
      some (if key.partition.toInt < 0 then key.topic ++ ['-'] else key.topic,
        decimal key.partition.toInt.natAbs) := by
  rw [toString, decimalInt]
  split_ifs
  · rw [List.append_cons, splitLast_append _ (dash_notMem_decimal _)]
  · rw [splitLast_append _ (dash_notMem_decimal _)]

/-- The partition number of `key` is negative, and its sign is read as part of the topic. -/
structure Twins (key key' : TopicPartition) : Prop where
  neg : key.partition.toInt < 0
  topic : key'.topic = key.topic ++ ['-']
  partition : key'.partition.toInt = -key.partition.toInt

theorem Twins.ne (h : Twins key key') : key ≠ key' := by
  rintro rfl
  have := h.neg
  have := h.partition
  omega

theorem Twins.toString_eq (h : Twins key key') : key.toString = key'.toString := by
  have hneg := h.neg
  rw [toString, toString, h.topic, h.partition, decimalInt, if_pos hneg, decimalInt,
    if_neg (by omega), Int.natAbs_neg, List.append_assoc]
  rfl

theorem eq_of_fields (htopic : key.topic = key'.topic)
    (hpartition : key.partition.toInt = key'.partition.toInt) : key = key' := by
  obtain ⟨topic, partition⟩ := key
  obtain ⟨topic', partition'⟩ := key'
  obtain rfl : partition = partition' := Int32.toInt_inj.mp hpartition
  dsimp only at htopic
  rw [htopic]

/-- What two keys of one name have in common. -/
theorem split_eq (h : key.toString = key'.toString) :
    (if key.partition.toInt < 0 then key.topic ++ ['-'] else key.topic) =
        (if key'.partition.toInt < 0 then key'.topic ++ ['-'] else key'.topic) ∧
      key.partition.toInt.natAbs = key'.partition.toInt.natAbs := by
  have hsplit := key.splitLast_toString
  rw [h, splitLast_toString, Option.some.injEq, Prod.mk.injEq] at hsplit
  have habs := congrArg (digitsValue 0) hsplit.2
  rw [digitsValue_decimal, digitsValue_decimal] at habs
  exact ⟨hsplit.1.symm, habs.symm⟩

/-- Exactly the keys whose partition number is not negative are read back from their name, and
exactly the twins share one. -/
theorem names_decode (key : TopicPartition) :
    (ConfigManager.decodeName key.cfgName = some key ↔ 0 ≤ key.partition.toInt) ∧
      ∀ key', key ≠ key' ∧ key.toString = key'.toString ↔ Twins key key' ∨ Twins key' key := by
  refine ⟨⟨fun hdecode => ?_, decodeName_nonneg⟩, fun key' => ⟨?_, ?_⟩⟩
  · by_contra hneg
    rw [ConfigManager.decodeName, if_neg (by rw [extension_cfgName]; simp), stem_cfgName,
      splitLast_toString, if_pos (not_le.mp hneg)] at hdecode
    dsimp only at hdecode
    rw [Option.ite_none_left_eq_some, Option.some.injEq] at hdecode
    have htopic := congrArg (fun k : TopicPartition => k.topic.length) hdecode.2
    simp at htopic
  · rintro ⟨hne, hname⟩
    obtain ⟨htopic, habs⟩ := split_eq hname
    split_ifs at htopic with h h'
    · exact absurd (eq_of_fields (List.append_cancel_right htopic) (by omega)) hne
    · exact Or.inl ⟨h, htopic.symm, by omega⟩
    · exact Or.inr ⟨by assumption, htopic, by omega⟩
    · exact absurd (eq_of_fields htopic (by omega)) hne
  · rintro (h | h)
    · exact ⟨h.ne, h.toString_eq⟩
    · exact ⟨h.ne.symm, h.toString_eq.symm⟩

/-- The partition number is one that reading a name can give. -/
def Loadable (key : TopicPartition) : Prop :=
  0 ≤ key.partition.toInt ∨ key.partition.toInt = -2 ^ 31

theorem atoi_decimal (n : ℕ) (hn : n ≤ 2 ^ 31) :
    (ConfigManager.atoi (decimal n)).toInt = if n = 2 ^ 31 then -2 ^ 31 else (n : ℤ) := by
  rw [ConfigManager.atoi, leadingInt_numeral (numeral_decimal _), digitsValue_decimal,
    min_eq_right (by omega), max_eq_right (by omega)]
  split_ifs with h
  · subst h
    decide
  · exact Int32.toInt_ofInt_of_le (by omega) (by omega)

/-- A key that is read from the name of a key is one that names are read as. -/
theorem Encodable.decoded (h : key.Encodable)
    (hd : ConfigManager.decodeName key.cfgName = some key') : key'.Encodable ∧ key'.Loadable := by
  have hle := Int32.le_toInt key.partition
  have hlt := Int32.toInt_lt key.partition
  have htopic : ∀ c ≠ '-', c ∉ key.topic →
      c ∉ if key.partition.toInt < 0 then key.topic ++ ['-'] else key.topic := by
    intro c hc hnot
    split_ifs
    · simp [hc, hnot]
    · exact hnot
  rw [ConfigManager.decodeName, if_neg (by rw [extension_cfgName]; simp), stem_cfgName,
    splitLast_toString] at hd
  generalize (if key.partition.toInt < 0 then key.topic ++ ['-'] else key.topic) = topic
    at hd htopic
  dsimp only at hd
  rw [Option.ite_none_left_eq_some, Option.some.injEq] at hd
  obtain ⟨-, rfl⟩ := hd
  refine ⟨⟨htopic _ (by decide) h.slash, htopic _ (by decide) h.null⟩, ?_⟩
  rw [Loadable, atoi_decimal _ (by omega)]
  split_ifs
  · exact Or.inr rfl
  · exact Or.inl (Int.natCast_nonneg _)

theorem Loadable.toString_inj (h : key.Loadable) (h' : key'.Loadable)
    (he : key.toString = key'.toString) : key = key' := by
  have hlt := Int32.toInt_lt key.partition
  have hlt' := Int32.toInt_lt key'.partition
  obtain ⟨htopic, habs⟩ := split_eq he
  have hpart : key.partition.toInt = key'.partition.toInt := by
    rcases h with h | h <;> rcases h' with h' | h' <;> omega
  rw [hpart] at htopic
  apply eq_of_fields _ hpart
  split_ifs at htopic
  · exact List.append_cancel_right htopic
  · exact htopic

end TopicPartition

end MyKafka
