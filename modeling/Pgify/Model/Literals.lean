import Pgify.Model.Tree

/-! # The words of the lexer

The literals that start with a letter, in the order of the alternatives of the token rule: those
that the grammar writes in its rules come first, then the keywords. One of them contains a blank.
-/

namespace Pgify.Model

def literals : List (String × TokenType) :=
  [("UNLOCK", .unlock), ("DATABASES", .databases), ("COLUMNS", .columns), ("FIELDS", .fields),
    ("DISK", .other 569), ("MEMORY", .other 570), ("MATCH", .other 571), ("PARTIAL", .other 572),
    ("SIMPLE", .other 573), ("NO", .other 574), ("ACTION", .other 575), ("BTREE", .other 576),
    ("HASH", .other 577), ("KEY_BLOCK_SIZE", .other 578), ("WITH PARSER", .other 579),
    ("AVG_ROW_LENGTH", .other 580), ("CHECKSUM", .other 581), ("CONNECTION", .other 582),
    ("DATA", .other 583), ("DIRECTORY", .other 584), ("DELAY_KEY_WRITE", .other 585),
    ("INSERT_METHOD", .other 586), ("MAX_ROWS", .other 587), ("MIN_ROWS", .other 588),
    ("PACK_KEYS", .other 589), ("PASSWORD", .other 590), ("ROW_FORMAT", .other 591),
    ("COMPRESSED", .other 592), ("REDUNDANT", .other 593), ("COMPACT", .other 594),
    ("MICROSECOND", .other 595), ("MINUTE", .other 596), ("HOUR", .other 597),
    ("WEEK", .other 598), ("QUARTER", .other 599), ("OUTFILE", .other 600),
    ("TERMINATED", .other 601), ("OPTIONALLY", .other 602), ("ENCLOSED", .other 603),
    ("LINES", .other 604), ("DUMPFILE", .other 605), ("STATEMENT_ID", .other 606),
    ("ACCESS", .other 371), ("ADD", .other 372), ("ALL", .other 101), ("ALTER", .other 373),
    ("AND", .other 239), ("ANY", .other 274), ("ARRAYLEN", .other 374), ("AS", .kAs),
    ("ASC", .kAsc), ("AUDIT", .other 375), ("BETWEEN", .other 236), ("BY", .other 120),
    ("CASE", .other 151), ("CHAR", .other 188), ("CHECK", .other 248), ("CLUSTER", .other 376),
    ("COLUMN", .other 377), ("COMMENT", .other 65), ("COMPRESS", .other 378),
    ("CONNECT", .other 257), ("CREATE", .kCreate), ("CURRENT", .other 356), ("DATE", .other 175),
    ("DATETIME", .other 176), ("DECIMAL", .other 170), ("DEFAULT", .other 47),
    ("DELETE", .kDelete), ("DESC", .kDesc), ("DISTINCT", .other 112), ("DISTINCTROW", .other 113),
    ("DROP", .kDrop), ("ELSE", .other 103), ("EXCLUSIVE", .other 379), ("EXISTS", .kExists),
    ("FALSE", .other 217), ("FILE", .other 380), ("FLOAT", .other 180), ("FOR", .other 246),
    ("FROM", .other 42), ("GRANT", .other 381), ("GROUP", .other 260), ("HAVING", .other 115),
    ("IDENTIFIED", .other 382), ("IMMEDIATE", .other 383), ("IN", .other 43),
    ("INCREMENT", .other 309), ("INDEX", .other 73), ("INITIAL", .other 384), ("INSERT", .kInsert),
    ("INTEGER", .other 210), ("INTERSECT", .other 311), ("INTO", .kInto), ("IF", .kIf),
    ("IS", .other 266), ("LEVEL", .other 220), ("LIKE", .kLike), ("LIKE2", .other 281),
    ("LIKE4", .other 282), ("LIKEC", .other 280), ("LOCK", .kLock), ("LONG", .other 172),
    ("MAXEXTENTS", .other 385), ("MINUS", .other 312), ("MODE", .other 364),
    ("MODIFY", .other 386), ("NOAUDIT", .other 387), ("NOCOMPRESS", .other 388), ("NOT", .kNot),
    ("NOTFOUND", .other 389), ("NOWAIT", .other 359), ("NULL", .kNull), ("NUMBER", .other 168),
    ("OF", .other 241), ("OFFLINE", .other 390), ("ON", .kOn), ("ONLINE", .other 391),
    ("OPTION", .other 249), ("OR", .other 265), ("ORDER", .other 304), ("PCTFREE", .other 392),
    ("PRIOR", .other 139), ("PRIVILEGES", .other 393), ("PUBLIC", .other 394), ("RAW", .other 173),
    ("RENAME", .other 395), ("RESOURCE", .other 396), ("REVOKE", .other 397), ("ROW", .other 357),
    ("ROWID", .other 206), ("ROWLABEL", .other 398), ("ROWNUM", .other 219), ("ROWS", .other 297),
    ("SELECT", .kSelect), ("SESSION", .other 399), ("SET", .kSet), ("SHARE", .other 363),
    ("SIZE", .other 400), ("SMALLINT", .other 213), ("SQLBUF", .other 401), ("START", .other 259),
    ("SUCCESSFUL", .other 402), ("SYNONYM", .other 403), ("SYSDATE", .other 218),
    ("TABLE", .kTable), ("THEN", .other 94), ("TO", .other 124), ("TINYINT", .other 212),
    ("MEDIUMINT", .other 211), ("TRIGGER", .other 404), ("TRUE", .other 216), ("UID", .other 405),
    ("UNION", .other 114), ("UNIQUE", .kUnique), ("UPDATE", .kUpdate), ("USER", .other 406),
    ("VALIDATE", .other 407), ("VALUES", .other 98), ("VARCHAR", .other 191),
    ("VARCHAR2", .other 192), ("VIEW", .other 408), ("WHENEVER", .other 409),
    ("WHERE", .other 256), ("WITH", .kWith), ("TEXT", .other 184), ("TINYTEXT", .other 185),
    ("MEDIUMTEXT", .other 186), ("LONGTEXT", .other 187), ("ENUM", .kEnum), ("SHOW", .kShow),
    ("A", .other 276), ("AT", .other 154), ("ADMIN", .other 410), ("AFTER", .other 411),
    ("ALLOCATE", .other 412), ("ANALYZE", .other 413), ("ARCHIVE", .other 414),
    ("ARCHIVELOG", .other 415), ("AUTHORIZATION", .other 416), ("AUTO_INCREMENT", .kAutoIncrement),
    ("AVG", .other 315), ("BACKUP", .other 417), ("BECOME", .other 418), ("BEFORE", .other 419),
    ("BEGIN", .other 420), ("BIGINT", .other 214), ("BLOCK", .other 243), ("BODY", .other 421),
    ("CACHE", .other 422), ("CANCEL", .other 423), ("CASCADE", .other 82), ("CHANGE", .other 424),
    ("CHARACTER", .other 48), ("CHARSET", .other 50), ("CHECKPOINT", .other 425),
    ("CLOSE", .other 426), ("COBOL", .other 427), ("COLLATE", .other 52), ("COMMIT", .other 428),
    ("COMPILE", .other 429), ("CONSTRAINT", .other 83), ("CONSTRAINTS", .other 430),
    ("CONTENTS", .other 431), ("CONTINUE", .other 432), ("CONTROLFILE", .other 433),
    ("COLUMN_FORMAT", .other 67), ("COUNT", .other 319), ("CURSOR", .other 434),
    ("CYCLE", .other 123), ("DATABASE", .kDatabase), ("DATAFILE", .other 435), ("DAY", .other 177),
    ("DBA", .other 436), ("DBTIMEZONE", .other 157), ("DEC", .other 171), ("DECLARE", .other 437),
    ("DISABLE", .other 438), ("DISMOUNT", .other 439), ("DOUBLE", .kDouble), ("DUMP", .other 440),
    ("DYNAMIC", .other 69), ("EACH", .other 441), ("ENABLE", .other 442), ("END", .other 152),
    ("ENGINE", .other 85), ("ESCAPE", .other 283), ("EVENTS", .other 443), ("EXCEPT", .other 444),
    ("EXCEPTIONS", .other 445), ("EXEC", .other 446), ("EXECUTE", .other 447),
    ("EXPLAIN", .other 448), ("EXTENT", .other 449), ("EXTERNALLY", .other 450),
    ("FETCH", .other 451), ("FIXED", .other 68), ("FLUSH", .other 452), ("FORCE", .other 453),
    ("FOREIGN", .other 78), ("FORTRAN", .other 454), ("FOUND", .other 455),
    ("FREELIST", .other 456), ("FREELISTS", .other 457), ("FUNCTION", .other 458),
    ("GO", .other 459), ("GOTO", .other 460), ("GROUPS", .other 461), ("INCLUDING", .other 462),
    ("INDICATOR", .other 463), ("INITRANS", .other 464), ("INSTANCE", .other 465),
    ("INT", .other 209), ("KEY", .kKey), ("LANGUAGE", .other 466), ("LAYER", .other 467),
    ("LINK", .other 468), ("LISTS", .other 469), ("LOGFILE", .other 470), ("LOCAL", .other 36),
    ("LOCKED", .other 362), ("MANAGE", .other 471), ("MANUAL", .other 472), ("MAX", .other 326),
    ("MAXDATAFILES", .other 473), ("MAXINSTANCES", .other 474), ("MAXLOGFILES", .other 475),
    ("MAXLOGHISTORY", .other 476), ("MAXLOGMEMBERS", .other 477), ("MAXTRANS", .other 478),
    ("MAXVALUE", .other 240), ("MIN", .other 327), ("MINEXTENTS", .other 479),
    ("MINVALUE", .other 480), ("MODULE", .other 481), ("MONTH", .other 145), ("MOUNT", .other 482),
    ("NEW", .other 483), ("NEXT", .other 484), ("NOARCHIVELOG", .other 485),
    ("NOCACHE", .other 486), ("NOCYCLE", .other 258), ("NOMAXVALUE", .other 487),
    ("NOMINVALUE", .other 488), ("NONE", .other 489), ("NOORDER", .other 490),
    ("NORESETLOGS", .other 491), ("NORMAL", .other 492), ("NOSORT", .other 493),
    ("NUMERIC", .other 169), ("OFF", .other 494), ("OLD", .other 495), ("ONLY", .other 89),
    ("OPEN", .other 496), ("OPTIMAL", .other 497), ("OWN", .other 498), ("PACKAGE", .other 499),
    ("PARALLEL", .other 500), ("PCTINCREASE", .other 501), ("PCTUSED", .other 502),
    ("PLAN", .other 503), ("PLI", .other 504), ("PRECISION", .kPrecision), ("PRIMARY", .kPrimary),
    ("PRIVATE", .other 505), ("PROCEDURE", .other 365), ("PROFILE", .other 506),
    ("QUOTA", .other 507), ("READ", .other 35), ("REAL", .other 181), ("RECOVER", .other 508),
    ("REFERENCES", .kReferences), ("REFERENCING", .other 509), ("RESETLOGS", .other 510),
    ("RESTRICT", .other 81), ("RESTRICTED", .other 511), ("REUSE", .other 512),
    ("ROLE", .other 513), ("ROLES", .other 514), ("ROLLBACK", .other 515),
    ("SAVEPOINT", .other 516), ("SCHEMA", .other 517), ("SCN", .other 237), ("SECOND", .other 178),
    ("SECTION", .other 518), ("SEGMENT", .other 519), ("SEQUENCE", .other 520),
    ("SESSIONTIMEZONE", .other 158), ("SHARED", .other 521), ("SNAPSHOT", .other 522),
    ("SKIP", .other 361), ("SOME", .other 275), ("SORT", .other 523), ("SQL", .other 153),
    ("SQLCODE", .other 524), ("SQLERROR", .other 525), ("SQLSTATE", .other 526),
    ("STATEMENT", .other 527), ("STATISTICS", .other 528), ("STOP", .other 529),
    ("STORAGE", .other 70), ("SUM", .other 347), ("SWITCH", .other 530), ("SYSTEM", .other 531),
    ("TABLES", .kTables), ("TABLESPACE", .other 532), ("TEMPORARY", .kTemporary),
    ("THREAD", .other 533), ("TIME", .other 155), ("TRACING", .other 534),
    ("TRANSACTION", .other 535), ("TRIGGERS", .other 536), ("TRUNCATE", .other 537),
    ("UNDER", .other 538), ("UNLIMITED", .other 109), ("UNTIL", .other 306), ("USE", .kUse),
    ("USING", .kUsing), ("WAIT", .other 360), ("WHEN", .other 92), ("WORK", .other 539),
    ("WRITE", .other 38), ("YEAR", .other 144), ("ZONE", .other 156), ("AUTOMATIC", .other 302),
    ("BFILE", .other 205), ("BINARY_DOUBLE", .other 165), ("BINARY_FLOAT", .other 164),
    ("BINARY_INTEGER", .other 163), ("BLOB", .other 202), ("LONGBLOB", .other 201),
    ("MEDIUMBLOB", .other 200), ("TINYBLOB", .other 199), ("BOOLEAN", .other 174),
    ("BYTE", .other 190), ("CAST", .other 161), ("CLOB", .other 203), ("CLUSTER_SET", .other 160),
    ("COLUMN_VALUE", .other 229), ("CONNECT_BY_ISCYCLE", .other 222),
    ("CONNECT_BY_ISLEAF", .other 221), ("CONNECT_BY_ROOT", .other 140), ("CORR", .other 316),
    ("COVAR_POP", .other 317), ("COVAR_SAMP", .other 318), ("CROSS", .other 252),
    ("CUBE", .other 262), ("CUME_DIST", .other 320), ("DECREMENT", .other 310),
    ("DENSE_RANK", .other 321), ("DIMENSION", .other 293), ("EMPTY", .other 277),
    ("EQUALS_PATH", .other 287), ("FIRST_VALUE", .other 322), ("FULL", .kFull),
    ("GROUPING", .other 263), ("IGNORE", .other 290), ("INFINITE", .other 268),
    ("INNER", .other 250), ("INTERVAL", .other 159), ("ITERATE", .other 305), ("JOIN", .other 251),
    ("KEEP", .other 291), ("LAG", .other 323), ("LAST", .other 122), ("LAST_VALUE", .other 324),
    ("LEAD", .other 325), ("LEFT", .other 253), ("MAIN", .other 298), ("MEASURES", .other 299),
    ("MEMBER", .other 284), ("MLSLABEL", .other 197), ("MODEL", .other 289),
    ("MULTISET", .other 162), ("NAN", .other 267), ("NATIONAL", .other 196),
    ("NATURAL", .other 166), ("NAV", .other 292), ("NCHAR", .other 193), ("NCLOB", .other 204),
    ("NTILE", .other 328), ("NULLS", .other 121), ("NVARCHAR", .other 194),
    ("NVARCHAR2", .other 195), ("OBJECT_ID", .other 230), ("OBJECT_VALUE", .other 231),
    ("ORA_ROWSCN", .other 232), ("OUTER", .other 255), ("OVER", .other 352),
    ("PARTITION", .other 245), ("PERCENTILE_CONT", .other 330), ("PERCENTILE_DISC", .other 331),
    ("PERCENT_RANK", .other 329), ("PIVOT", .other 366), ("PLS_INTEGER", .other 198),
    ("POSITIVE", .other 167), ("PRESENT", .other 279), ("RANK", .other 332),
    ("RATIO_TO_REPORT", .other 333), ("REFERENCE", .other 295), ("REGEXP_LIKE", .other 285),
    ("REGR_AVGX", .other 338), ("REGR_AVGY", .other 339), ("REGR_COUNT", .other 336),
    ("REGR_INTERCEPT", .other 335), ("REGR_R2", .other 337), ("REGR_SLOPE", .other 334),
    ("REGR_SXX", .other 340), ("REGR_SXY", .other 342), ("REGR_SYY", .other 341),
    ("RIGHT", .other 254), ("ROLLUP", .other 261), ("ROW_NUMBER", .other 343),
    ("RULES", .other 300), ("SAMPLE", .other 242), ("SEARCH", .other 117),
    ("SEQUENTIAL", .other 303), ("SETS", .other 264), ("SINGLE", .other 294),
    ("STDDEV", .other 344), ("STDDEV_POP", .other 345), ("STDDEV_SAMP", .other 346),
    ("SUBMULTISET", .other 286), ("SUBPARTITION", .other 247), ("THE", .other 540),
    ("TIMESTAMP", .other 179), ("TYPE", .other 278), ("UNBOUNDED", .other 353),
    ("UNDER_PATH", .other 288), ("UPDATED", .other 296), ("UPSERT", .other 301),
    ("UROWID", .other 207), ("VARIANCE", .other 350), ("VARYING", .other 189),
    ("VAR_POP", .other 348), ("VAR_SAMP", .other 349), ("VERSIONS_ENDSCN", .other 226),
    ("VERSIONS_ENDTIME", .other 225), ("VERSIONS_OPERATION", .other 228),
    ("VERSIONS_STARSCN", .other 224), ("VERSIONS_STARTTIME", .other 223),
    ("VERSIONS_XID", .other 227), ("XML", .other 367), ("XMLDATA", .other 233),
    ("ERRORS", .other 106), ("FIRST", .other 102), ("LIMIT", .other 108), ("OFFSET", .other 314),
    ("LOG", .other 105), ("REJECT", .other 107), ("RETURN", .other 99), ("RETURNING", .other 100),
    ("MERGE", .kMerge), ("MATCHED", .other 93), ("FOLLOWING", .other 355), ("RANGE", .other 358),
    ("SIBLINGS", .other 313), ("UNPIVOT", .other 368), ("UNSIGNED", .other 215),
    ("VALUE", .other 110), ("BREADTH", .other 119), ("DEPTH", .other 118), ("EXCLUDE", .other 369),
    ("INCLUDE", .other 370), ("MIVALUE", .other 238), ("PRECEDING", .other 354),
    ("RESPECT", .other 351), ("SEED", .other 244), ("VERSIONS", .other 235),
    ("HIGH_PRIORITY", .other 125), ("STRAIGHT_JOIN", .other 126), ("SQL_SMALL_RESULT", .other 127),
    ("SQL_BIG_RESULT", .other 128), ("SQL_BUFFER_RESULT", .other 129), ("SQL_CACHE", .other 130),
    ("SQL_NO_CACHE", .other 131), ("SQL_CALC_FOUND_ROWS", .other 132), ("INNODB", .other 87),
    ("MYISAM", .other 86), ("LOW_PRIORITY", .other 37), ("FULLTEXT", .other 77),
    ("CURRENT_TIMESTAMP", .other 541), ("CONCAT", .other 149), ("CONCAT_WS", .other 150),
    ("NULLIF", .other 147), ("IFNULL", .other 148), ("FOUND_ROWS", .kFoundRows)]

end Pgify.Model
