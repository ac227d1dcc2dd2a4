import Pgify.Model.NameLexer

/-! # Names

The parser takes a name through `sql_identifier`: an identifier, a quoted string or one of the words
of the `keyword` rule. Which token a word becomes, and with which text, is settled by the lexer.
-/

namespace Pgify.Model

/-- The `keyword` rule: its words and their token types. -/
def keyword : List (String × TokenType) :=
  [("A", .other 276), ("ADMIN", .other 410), ("AFTER", .other 411), ("ALLOCATE", .other 412),
    ("ANALYZE", .other 413), ("ARCHIVE", .other 414), ("ARCHIVELOG", .other 415),
    ("AT", .other 154), ("AUTHORIZATION", .other 416), ("AUTO_INCREMENT", .kAutoIncrement),
    ("AVG", .other 315), ("BACKUP", .other 417), ("BECOME", .other 418), ("BEFORE", .other 419),
    ("BEGIN", .other 420), ("BIGINT", .other 214), ("BLOCK", .other 243), ("BODY", .other 421),
    ("BREADTH", .other 119), ("CACHE", .other 422), ("CANCEL", .other 423),
    ("CASCADE", .other 82), ("CHANGE", .other 424), ("CHARACTER", .other 48),
    ("CHARSET", .other 50), ("CHECKPOINT", .other 425), ("CLOSE", .other 426),
    ("COBOL", .other 427), ("COMMIT", .other 428), ("COMPILE", .other 429),
    ("CONSTRAINT", .other 83), ("CONSTRAINTS", .other 430), ("CONTENTS", .other 431),
    ("CONTINUE", .other 432), ("CONTROLFILE", .other 433), ("COUNT", .other 319),
    ("COLUMN_FORMAT", .other 67), ("CURSOR", .other 434), ("CYCLE", .other 123),
    ("DATABASE", .kDatabase), ("DATAFILE", .other 435), ("DAY", .other 177), ("DBA", .other 436),
    ("DBTIMEZONE", .other 157), ("DEC", .other 171), ("DECLARE", .other 437),
    ("DISABLE", .other 438), ("DISMOUNT", .other 439), ("DOUBLE", .kDouble), ("DUMP", .other 440),
    ("DEPTH", .other 118), ("DYNAMIC", .other 69), ("EACH", .other 441), ("ENABLE", .other 442),
    ("END", .other 152), ("ENGINE", .other 85), ("ESCAPE", .other 283), ("EVENTS", .other 443),
    ("ERRORS", .other 106), ("EXCEPT", .other 444), ("EXCEPTIONS", .other 445),
    ("EXEC", .other 446), ("EXECUTE", .other 447), ("EXCLUDE", .other 369),
    ("EXPLAIN", .other 448), ("EXTENT", .other 449), ("EXTERNALLY", .other 450),
    ("FETCH", .other 451), ("FIRST", .other 102), ("FIXED", .other 68), ("FLUSH", .other 452),
    ("FORCE", .other 453), ("FOREIGN", .other 78), ("FORTRAN", .other 454), ("FOUND", .other 455),
    ("FOLLOWING", .other 355), ("FREELIST", .other 456), ("FREELISTS", .other 457),
    ("FUNCTION", .other 458), ("GO", .other 459), ("GOTO", .other 460), ("GROUPS", .other 461),
    ("INCLUDE", .other 370), ("INCLUDING", .other 462), ("INDICATOR", .other 463),
    ("INITRANS", .other 464), ("INSTANCE", .other 465), ("INT", .other 209), ("KEY", .kKey),
    ("LANGUAGE", .other 466), ("LAYER", .other 467), ("LIMIT", .other 108),
    ("OFFSET", .other 314), ("LINK", .other 468), ("LISTS", .other 469), ("LOCAL", .other 36),
    ("LOCKED", .other 362), ("LOG", .other 105), ("LOGFILE", .other 470), ("MANAGE", .other 471),
    ("MANUAL", .other 472), ("MATCHED", .other 93), ("MAX", .other 326),
    ("MAXDATAFILES", .other 473), ("MAXINSTANCES", .other 474), ("MAXLOGFILES", .other 475),
    ("MAXLOGHISTORY", .other 476), ("MAXLOGMEMBERS", .other 477), ("MAXTRANS", .other 478),
    ("MAXVALUE", .other 240), ("MERGE", .kMerge), ("MIN", .other 327), ("MINEXTENTS", .other 479),
    ("MINVALUE", .other 480), ("MODULE", .other 481), ("MONTH", .other 145),
    ("MOUNT", .other 482), ("NEW", .other 483), ("NEXT", .other 484),
    ("NOARCHIVELOG", .other 485), ("NOCACHE", .other 486), ("NOCYCLE", .other 258),
    ("NOMAXVALUE", .other 487), ("NOMINVALUE", .other 488), ("NONE", .other 489),
    ("NOORDER", .other 490), ("NORESETLOGS", .other 491), ("NORMAL", .other 492),
    ("NOSORT", .other 493), ("NUMERIC", .other 169), ("OFF", .other 494), ("OLD", .other 495),
    ("ONLY", .other 89), ("OPEN", .other 496), ("OPTIMAL", .other 497), ("OWN", .other 498),
    ("PACKAGE", .other 499), ("PARALLEL", .other 500), ("PCTINCREASE", .other 501),
    ("PCTUSED", .other 502), ("PLAN", .other 503), ("PLI", .other 504),
    ("PRECISION", .kPrecision), ("PRIMARY", .kPrimary), ("PRIVATE", .other 505),
    ("PRECEDING", .other 354), ("PROCEDURE", .other 365), ("PROFILE", .other 506),
    ("QUOTA", .other 507), ("READ", .other 35), ("REAL", .other 181), ("RECOVER", .other 508),
    ("REFERENCES", .kReferences), ("REFERENCING", .other 509), ("REJECT", .other 107),
    ("RETURN", .other 99), ("RETURNING", .other 100), ("RESETLOGS", .other 510),
    ("RESTRICT", .other 81), ("RESTRICTED", .other 511), ("REUSE", .other 512),
    ("ROLE", .other 513), ("ROLES", .other 514), ("ROLLBACK", .other 515),
    ("RESPECT", .other 351), ("SAVEPOINT", .other 516), ("SECOND", .other 178),
    ("SESSIONTIMEZONE", .other 158), ("SCHEMA", .other 517), ("SCN", .other 237),
    ("SECTION", .other 518), ("SEGMENT", .other 519), ("SEQUENCE", .other 520),
    ("SHARED", .other 521), ("SKIP", .other 361), ("SNAPSHOT", .other 522), ("SOME", .other 275),
    ("SORT", .other 523), ("SQL", .other 153), ("SQLCODE", .other 524), ("SQLERROR", .other 525),
    ("SQLSTATE", .other 526), ("STATEMENT_ID", .other 606), ("STATISTICS", .other 528),
    ("STOP", .other 529), ("STORAGE", .other 70), ("SUM", .other 347), ("SWITCH", .other 530),
    ("SYSTEM", .other 531), ("SEED", .other 244), ("TABLES", .kTables),
    ("TABLESPACE", .other 532), ("TEMPORARY", .kTemporary), ("THREAD", .other 533),
    ("TIME", .other 155), ("TRACING", .other 534), ("TRANSACTION", .other 535),
    ("TRIGGERS", .other 536), ("TRUNCATE", .other 537), ("UNDER", .other 538),
    ("UNLIMITED", .other 109), ("UNTIL", .other 306), ("USE", .kUse), ("VALUE", .other 110),
    ("VERSIONS", .other 235), ("WHEN", .other 92), ("WORK", .other 539), ("WRITE", .other 38),
    ("YEAR", .other 144), ("ZONE", .other 156), ("AUTOMATIC", .other 302), ("BFILE", .other 205),
    ("BINARY_DOUBLE", .other 165), ("BINARY_FLOAT", .other 164), ("BINARY_INTEGER", .other 163),
    ("BLOB", .other 202), ("BOOLEAN", .other 174), ("BYTE", .other 190), ("CAST", .other 161),
    ("CLOB", .other 203), ("CLUSTER_SET", .other 160), ("COLUMN_VALUE", .other 229),
    ("CONNECT_BY_ISCYCLE", .other 222), ("CONNECT_BY_ISLEAF", .other 221),
    ("CONNECT_BY_ROOT", .other 140), ("CORR", .other 316), ("COVAR_POP", .other 317),
    ("COVAR_SAMP", .other 318), ("CROSS", .other 252), ("CUBE", .other 262),
    ("CUME_DIST", .other 320), ("DECREMENT", .other 310), ("DENSE_RANK", .other 321),
    ("DIMENSION", .other 293), ("EMPTY", .other 277), ("EQUALS_PATH", .other 287),
    ("FIRST_VALUE", .other 322), ("FULL", .kFull), ("GROUPING", .other 263),
    ("IGNORE", .other 290), ("INFINITE", .other 268), ("INNER", .other 250),
    ("INTERVAL", .other 159), ("ITERATE", .other 305), ("KEEP", .other 291), ("LAG", .other 323),
    ("LAST", .other 122), ("LAST_VALUE", .other 324), ("LEAD", .other 325), ("LEFT", .other 253),
    ("MAIN", .other 298), ("MEASURES", .other 299), ("MEMBER", .other 284),
    ("MLSLABEL", .other 197), ("NAN", .other 267), ("NATIONAL", .other 196),
    ("NATURAL", .other 166), ("NAV", .other 292), ("NCHAR", .other 193), ("NCLOB", .other 204),
    ("NTILE", .other 328), ("NULLS", .other 121), ("NVARCHAR", .other 194),
    ("NVARCHAR2", .other 195), ("OBJECT_ID", .other 230), ("OBJECT_VALUE", .other 231),
    ("ORA_ROWSCN", .other 232), ("OVER", .other 352), ("PIVOT", .other 366),
    ("PLS_INTEGER", .other 198), ("POSITIVE", .other 167), ("PRESENT", .other 279),
    ("RANGE", .other 358), ("RANK", .other 332), ("RATIO_TO_REPORT", .other 333),
    ("REFERENCE", .other 295), ("REGEXP_LIKE", .other 285), ("REGR_AVGX", .other 338),
    ("REGR_AVGY", .other 339), ("REGR_COUNT", .other 336), ("REGR_INTERCEPT", .other 335),
    ("REGR_R2", .other 337), ("REGR_SLOPE", .other 334), ("REGR_SXX", .other 340),
    ("REGR_SXY", .other 342), ("REGR_SYY", .other 341), ("RIGHT", .other 254),
    ("ROLLUP", .other 261), ("ROW_NUMBER", .other 343), ("RULES", .other 300),
    ("SAMPLE", .other 242), ("SEARCH", .other 117), ("SEQUENTIAL", .other 303),
    ("SETS", .other 264), ("SIBLINGS", .other 313), ("SINGLE", .other 294),
    ("STDDEV", .other 344), ("STDDEV_POP", .other 345), ("STDDEV_SAMP", .other 346),
    ("SUBMULTISET", .other 286), ("SUBPARTITION", .other 247), ("THE", .other 540),
    ("TIMESTAMP", .other 179), ("TYPE", .other 278), ("UNBOUNDED", .other 353),
    ("UNDER_PATH", .other 288), ("UNPIVOT", .other 368), ("UNSIGNED", .other 215),
    ("UPDATED", .other 296), ("UPSERT", .other 301), ("UROWID", .other 207),
    ("VARIANCE", .other 350), ("VARYING", .other 189), ("VAR_POP", .other 348),
    ("VAR_SAMP", .other 349), ("VERSIONS_XID", .other 227), ("XML", .other 367),
    ("XMLDATA", .other 233), ("HIGH_PRIORITY", .other 125), ("STRAIGHT_JOIN", .other 126),
    ("SQL_SMALL_RESULT", .other 127), ("SQL_BIG_RESULT", .other 128),
    ("SQL_BUFFER_RESULT", .other 129), ("SQL_CACHE", .other 130), ("SQL_NO_CACHE", .other 131),
    ("SQL_CALC_FOUND_ROWS", .other 132), ("LOW_PRIORITY", .other 37), ("FULLTEXT", .other 77),
    ("CURRENT_TIMESTAMP", .other 541), ("INNODB", .other 87), ("MYISAM", .other 86),
    ("CONCAT", .other 149), ("CONCAT_WS", .other 150), ("USER", .other 406),
    ("NULLIF", .other 147), ("IFNULL", .other 148), ("FOUND_ROWS", .kFoundRows)]

/-- The words that `sql_identifier` takes for a name. -/
def nameWords : List (String × TokenType) :=
  keyword ++ [("ROWID", .other 206), ("ROWNUM", .other 219)]

/-- The words whose lexer rules set the text of the token. -/
def setTexts : List (TokenType × String) :=
  [(.other 176, "TIMESTAMP "),
    (.other 113, "DISTINCT"),
    (.other 212, "SMALLINT"),
    (.other 211, "INTEGER"),
    (.other 185, "TEXT"),
    (.other 186, "TEXT"),
    (.other 187, "TEXT"),
    (.other 202, "TEXT"),
    (.other 201, "TEXT"),
    (.other 200, "TEXT"),
    (.other 199, "TEXT"),
    (.other 541, "NOW ( )")]

/-- LA of an input stream that folds case. -/
def upperCase (span : List Char) : List Char :=
  span.map Char.toUpper

/-- What the lexer rule of a name's token matches. -/
inductive Spells : TokenType → List Char → Prop
  | word {first : Char} {rest : List Char} (letter : first.toUpper.isUpper = true)
      (word : ∀ c ∈ rest, (c.toUpper.isUpper || c.isDigit || c ∈ ['_', '$', '#']) = true) :
      Spells .id (first :: rest)
  | doublequoted {content : List Char} (absent : '"' ∉ content) :
      Spells .id ('"' :: content ++ ['"'])
  | backquoted {content : List Char} (absent : '`' ∉ content) :
      Spells .id ('`' :: content ++ ['`'])
  | quotedString {body : List Char} (closed : quotedStringBody body = some (body, [])) :
      Spells .quotedString ('\'' :: body)
  | keyword {word : String} {type : TokenType} {span : List Char} (listed : (word, type) ∈ nameWords)
      (same : upperCase span = word.toList) : Spells type span

/-- The text that the lexer gives a token of a name. -/
def nameText (rt : Runtime) (options : ℕ) (type : TokenType) (span : String) : String :=
  match type with
  | .id => if span.toList.head? = some '`' then backquotedText rt options span else span
  | .quotedString => (if pgifyIsEscape options then "E" else "") ++ span
  | type => (setTexts.lookup type).getD span

end Pgify.Model
